import Tea.Sampling.Permutation
import Tea.Walk.Law
/-!
# The walk law of the input

The parallel build leaves entries with equal times in an order that depends on the schedule, and so does what a seed
draws. The law of the walks does not, if the weights are given by the times: it is that of the temporal random walk on the
edge list (`inputWalkLaw`), which is the same for every order of the edges (`inputWalkLaw_perm`).
-/

namespace Tea

open Arith Laws
open scoped ENNReal

variable {P : Type}

/-! ### Steps along entries that carry their weights -/

/-- The law of a step along one of the entries `es`, each with weight `g`. -/
noncomputable def stepBy (es : List Entry) (g : Entry → ℝ) : PMF SampledStep :=
  stepAlong es fun i => g (es.getD i (0, 0))

theorem stepBy_perm {es es' : List Entry} (h : es.Perm es') (g : Entry → ℝ) : stepBy es g = stepBy es' g := by
  have hstep : ∀ xs : List Entry, stepBy xs g = pick (xs.map stepTo) (fun i => ENNReal.ofReal
      (g (((xs.map stepTo).getD i .dead).t, ((xs.map stepTo).getD i .dead).v))) .dead := by
    intro xs
    unfold stepBy stepAlong
    apply pick_congr _ (fun i => ENNReal.ofReal_ne_top) fun i => ENNReal.ofReal_ne_top
    intro i hi
    have hi' : i < xs.length := by rwa [List.length_map] at hi
    rw [List.getD_eq_getElem _ _ hi, List.getElem_map, List.getD_eq_getElem _ _ hi']
    rfl
  rw [hstep es, hstep es']
  exact pick_perm (h.map stepTo) (g := fun s => ENNReal.ofReal (g (s.t, s.v))) (fun s => ENNReal.ofReal_ne_top) .dead

theorem stepBy_congr {es : List Entry} {g g' : Entry → ℝ} (h : ∀ e ∈ es, g e = g' e) : stepBy es g = stepBy es g' := by
  apply stepAlong_congr
  intro i hi
  rw [List.getD_eq_getElem _ _ hi, h _ (List.getElem_mem hi)]

/-! ### The temporal random walk on an edge list -/

/-- The entries that the input gives the walker's vertex before its time. -/
def inputCandidates (edges : List Edge) (isDirected : Bool) (w : Walker) : List Entry :=
  (inbound edges isDirected w.u.toNat).filter (·.1 < w.tPrev)

/-- The times of the edges of `u` in the input, ascending. -/
def inputTimes (edges : List Edge) (isDirected : Bool) (u : Nat) : List Int :=
  ((inbound edges isDirected u).map Prod.fst).mergeSort (· ≤ ·)

/-- The weight of an edge at time `t` among edges at the times `ts`. -/
noncomputable def Bias.weightAt (bias : Bias ℝ P) (ts : List Int) (t : Int) : ℝ :=
  (bias.fullWeights ts).getD (ts.idxOf t) 0

/-- The law of the walker's next step on the input. -/
noncomputable def inputStepLaw (edges : List Edge) (isDirected : Bool) (bias : Bias ℝ P) (w : Walker) :
    PMF SampledStep :=
  stepBy (inputCandidates edges isDirected w) fun e => bias.weightAt (inputTimes edges isDirected w.u.toNat) e.1

/-- The law of the walk of at most `n` hops on the input. -/
noncomputable def inputWalkLaw (edges : List Edge) (isDirected : Bool) (bias : Bias ℝ P) (n : Nat) (w : Walker) :
    PMF (List NodeStep) :=
  Paths.law (fun w => (inputStepLaw edges isDirected bias w).map slotOf) Walker.move n w

section perm

variable {edges edges' : List Edge} (hperm : edges'.Perm edges) (isDirected : Bool)

include hperm

theorem inputCandidates_perm (w : Walker) :
    (inputCandidates edges' isDirected w).Perm (inputCandidates edges isDirected w) :=
  (inbound_perm hperm isDirected w.u.toNat).filter _

theorem inputTimes_perm (u : Nat) : inputTimes edges' isDirected u = inputTimes edges isDirected u := by
  have hsorted : ∀ xs : List Int, (xs.mergeSort (· ≤ ·)).Pairwise (· ≤ ·) := fun xs =>
    List.pairwise_mergeSort' (r := (· ≤ ·)) xs
  refine List.Perm.eq_of_pairwise (fun a b _ _ => le_antisymm) (hsorted _) (hsorted _) ?_
  exact (List.mergeSort_perm _ _).trans
    (((inbound_perm hperm isDirected u).map Prod.fst).trans (List.mergeSort_perm _ _).symm)

theorem inputWalkLaw_perm (bias : Bias ℝ P) (n : Nat) (w : Walker) :
    inputWalkLaw edges' isDirected bias n w = inputWalkLaw edges isDirected bias n w := by
  have hstep : ∀ w, inputStepLaw edges' isDirected bias w = inputStepLaw edges isDirected bias w := by
    intro w
    rw [inputStepLaw, inputTimes_perm hperm, stepBy_perm (inputCandidates_perm hperm isDirected w)]
    rfl
  rw [inputWalkLaw, funext fun w => congrArg (PMF.map slotOf) (hstep w)]
  rfl

end perm

/-! ### The stored graph has the law of the input -/

theorem Bias.ByTime.fullWeights_eq {bias : Bias ℝ P} (htime : bias.ByTime) (ts : List Int) :
    bias.fullWeights ts = ts.map (bias.weightAt ts) := by
  obtain ⟨g, hg⟩ := htime ts
  rw [hg]
  apply List.map_congr_left
  intro t ht
  have hidx : ts.idxOf t < ts.length := List.idxOf_lt_length_of_mem ht
  rw [weightAt, hg, List.getD_eq_getElem _ _ (by rwa [List.length_map]), List.getElem_map, List.getElem_idxOf]

section stored

variable {graph : TemporalGraph} (hg : graph.WellFormed) {edges : List Edge} {isDirected : Bool}
  (hstores : StoresInput graph edges graph.numVertices isDirected)

include hg hstores

theorem timestampsOf_eq_inputTimes {u : Nat} (hu : u < graph.numVertices) :
    graph.timestampsOf u = inputTimes edges isDirected u := by
  have hfst : graph.timestampsOf u = (graph.entriesOf u).map Prod.fst := by
    rw [TemporalGraph.entriesOf, List.map_fst_zip]
    rw [hg.length_timestamps u hu, hg.length_targets u hu]
  refine List.Perm.eq_of_pairwise (fun a b _ _ => le_antisymm) (hg.sorted u hu)
    (List.pairwise_mergeSort' (r := (· ≤ ·)) _) ?_
  rw [hfst]
  exact ((hstores.entries u hu).map Prod.fst).trans (List.mergeSort_perm _ _).symm

theorem candidates_perm_input {w : Walker} (hw : w.InGraph graph) :
    (graph.candidates w.u.toNat w.tPrev).Perm (inputCandidates edges isDirected w) := by
  have hu : w.u.toNat < graph.numVertices := InGraph.toNat_lt hw
  rw [candidates_eq_filter hg hu]
  exact (hstores.entries _ hu).filter _

theorem stepAlong_eq_stepBy {bias : Bias ℝ P} (htime : bias.ByTime) {w : Walker} (hw : w.InGraph graph)
    (b : Entry → ℝ) :
    (stepAlong (graph.candidates w.u.toNat w.tPrev) fun i =>
      (bias.fullWeights (graph.timestampsOf w.u.toNat)).getD i 0 *
        b ((graph.candidates w.u.toNat w.tPrev).getD i (0, 0))) =
      stepBy (inputCandidates edges isDirected w) fun e =>
        bias.weightAt (inputTimes edges isDirected w.u.toNat) e.1 * b e := by
  have hu : w.u.toNat < graph.numVertices := InGraph.toNat_lt hw
  rw [← stepBy_perm (candidates_perm_input hg hstores hw), ← timestampsOf_eq_inputTimes hg hstores hu, stepBy]
  apply stepAlong_congr
  intro i hi
  rw [htime.fullWeights_eq, getD_map_timestamps hg hu w.tPrev _ hi]

theorem stepLaw_eq_input {bias : Bias ℝ P} (htime : bias.ByTime) {w : Walker} (hw : w.InGraph graph) :
    stepLaw graph bias w = inputStepLaw edges isDirected bias w := by
  have h := stepAlong_eq_stepBy hg hstores htime hw fun _ => 1
  simp only [mul_one] at h
  exact h

theorem walkLaw_eq_input {bias : Bias ℝ P} (htime : bias.ByTime) (n : Nat) {w : Walker} (hw : w.InGraph graph) :
    walkLaw graph bias n w = inputWalkLaw edges isDirected bias n w := by
  have hhop : ∀ w : Walker, w.InGraph graph → hopLaw graph bias w =
      (inputStepLaw edges isDirected bias w).map slotOf := by
    intro w hw
    rw [← stepLaw_eq_input hg hstores htime hw, stepLaw, map_slotOf_stepAlong fun e he => candidates_live hg hw he]
    rfl
  apply Paths.law_congr hhop _ n w hw
  intro w a hw ha
  rw [← hhop w hw] at ha
  exact hopLaw_move hg hw ha

theorem BuiltSampler.hops_input {bias : Bias ℝ P} (hexact : ∀ ts, bias.ExactOnSlices ts) (htime : bias.ByTime)
    {sample : Sampler ℝ} (h : BuiltSampler graph bias sample) (n : Nat) {w : Walker} (hw : w.InGraph graph)
    (scratch : SamplerScratch ℝ) :
    (Prod.fst <$> hops sample n w.u w.tPrev w.prevU scratch).HasLaw (inputWalkLaw edges isDirected bias n w) := by
  rw [← walkLaw_eq_input hg hstores htime n hw]
  exact h.hops_hasLaw hg hexact n hw scratch

end stored

/-- **The law of the walks is that of the input, under every schedule and for every order of the edges.** -/
theorem walks_hasLaw_input (S : StdSort) (self : TemporalGraph) {edges edges' : List Edge} {numVertices : Int}
    {isDirected : Bool} (hperm : edges'.Perm edges) (σ : Schedule edges' isDirected)
    (hin : EndpointsIn edges (vertexCount edges numVertices)) {bias : Bias ℝ P} (hexact : ∀ ts, bias.ExactOnSlices ts)
    (htime : bias.ByTime) {u : Int} (hu : 0 ≤ u ∧ u < vertexCount edges numVertices) (n : Nat) :
    let graph := TemporalGraph.build S self edges' numVertices isDirected σ
    ∀ sample, BuiltSampler graph bias sample → ∀ scratch : SamplerScratch ℝ,
      (Prod.fst <$> hops sample n u kSentinelStartTimestamp (-1) scratch).HasLaw
        (inputWalkLaw edges isDirected bias n (Walker.ofStart u)) := by
  intro graph sample hsample scratch
  have hin' : EndpointsIn edges' (vertexCount edges' numVertices) := hin.perm hperm
  obtain ⟨hg, hn, hstores⟩ : graph.WellFormed ∧ graph.numVertices = vertexCount edges' numVertices ∧
      StoresInput graph edges' graph.numVertices isDirected := build_walkable S self σ hin'
  have hw : (Walker.ofStart u).InGraph graph := Walker.inGraph_of_lt (hn.trans (vertexCount_perm hperm _)) hu
  rw [← inputWalkLaw_perm hperm]
  exact hsample.hops_input hg hstores hexact htime n hw scratch

/-- Two edges into vertex 1 at one time, in the other order. -/
theorem walks_hasLaw_input_uniform :
    let edges : List Edge := [⟨0, 1, 5⟩, ⟨2, 1, 5⟩, ⟨1, 0, 3⟩]
    let edges' : List Edge := [⟨2, 1, 5⟩, ⟨0, 1, 5⟩, ⟨1, 0, 3⟩]
    let graph := TemporalGraph.build StdSort.stable {} edges' 3 true (Schedule.serial edges' true)
    (Prod.fst <$> hops (patSampler graph (Pat.build {} graph uniformBias kPatTrunkSizeMin (ForSchedule.serial _))
      uniformBias) 79 1 kSentinelStartTimestamp (-1) {}).HasLaw
        (inputWalkLaw edges true (uniformBias : Bias ℝ Unit) 79 (Walker.ofStart 1)) :=
  walks_hasLaw_input StdSort.stable {} (List.Perm.swap _ _ _) (Schedule.serial _ true) (by unfold EndpointsIn; decide)
    uniformBias_exact uniformBias_byTime (by decide) 79 _ (.pat {} kPatTrunkSizeMin (ForSchedule.serial _)) {}

end Tea
