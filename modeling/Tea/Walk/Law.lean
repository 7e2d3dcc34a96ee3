import Tea.Lib.Paths
import Tea.Sampling.StepLaw
import Tea.Walk.Steps
/-!
# The law of a walk

The step loop is a path that may end (`hopsOf_eq_program`): a letter is a slot, and a dead step ends it. In exact
arithmetic, with uniform draws, its law is that of a temporal random walk (`walkLaw`), which takes one of the earlier
entries of its vertex with its share of the weights and ends where they have no weight. Both samplers walk by this law
(`patWalk_hasLaw`, `hpatWalk_hasLaw`), so a walk has the product of the shares of its hops as its probability, in every
layout of the tables.
-/

namespace Tea

open Arith Laws
open scoped ENNReal

variable {R P : Type}

/-! ### The walk as a path -/

/-- A walker between two hops. -/
structure Walker where
  u : Int
  tPrev : Int
  prevU : Int
deriving Repr, DecidableEq

namespace Walker

def ofStart (u : Int) : Walker := ⟨u, kSentinelStartTimestamp, -1⟩

/-- After a hop to slot `a`. -/
def move (w : Walker) (a : NodeStep) : Walker := ⟨a.v, a.t, w.u⟩

/-- The slot where the walker is. -/
def slot (w : Walker) : NodeStep := ⟨w.u, w.tPrev⟩

@[simp] theorem slot_move (w : Walker) (a : NodeStep) : (w.move a).slot = a := rfl

@[simp] theorem slot_ofStart (u : Int) : (ofStart u).slot = ⟨u, kSentinelStartTimestamp⟩ := rfl

end Walker

/-- The slot that a step fills; a dead step fills none. -/
def slotOf (s : SampledStep) : Option NodeStep := if s.v = kWalkDeadSentinel then none else some ⟨s.v, s.t⟩

theorem hopsOf_eq_program (step : StepFn R) (n : Nat) (w : Walker) : hopsOf step n w.u w.tPrev w.prevU =
    Paths.program (fun w : Walker => slotOf <$> step w.u w.tPrev w.prevU) Walker.move n w := by
  induction n generalizing w with
  | zero => rfl
  | succ n ih =>
      rw [hopsOf, Paths.program, bind_map_left]
      apply bind_congr
      intro s
      by_cases hdead : s.v = kWalkDeadSentinel
      · rw [if_pos hdead, slotOf, if_pos hdead]
      · rw [if_neg hdead, slotOf, if_neg hdead]
        exact congrArg (· >>= fun rest => pure (⟨s.v, s.t⟩ :: rest)) (ih (w.move ⟨s.v, s.t⟩))

/-! ### Hops along weighted entries -/

/-- The law of a step along one of the entries `es`, taken with the weights `w`. Without weight the step is dead. -/
noncomputable def stepAlong (es : List Entry) (w : Nat → ℝ) : PMF SampledStep :=
  pick (es.map stepTo) (fun i => ENNReal.ofReal (w i)) .dead

/-- The slot behind an entry. -/
def slotTo (e : Entry) : NodeStep := ⟨e.2, e.1⟩

/-- The law of the slot that such a step fills, `none` for the end of the walk. -/
noncomputable def hopAlong (es : List Entry) (w : Nat → ℝ) : PMF (Option NodeStep) :=
  pick (es.map fun e => some (slotTo e)) (fun i => ENNReal.ofReal (w i)) none

theorem stepAlong_congr {es : List Entry} {w w' : Nat → ℝ} (h : ∀ i < es.length, w i = w' i) :
    stepAlong es w = stepAlong es w' := by
  unfold stepAlong
  apply pick_congr _ (fun i => ENNReal.ofReal_ne_top) fun i => ENNReal.ofReal_ne_top
  intro i hi
  rw [List.length_map] at hi
  rw [h i hi]

theorem map_slotOf_stepAlong {es : List Entry} (hes : ∀ e ∈ es, e.2 ≠ kWalkDeadSentinel) (w : Nat → ℝ) :
    (stepAlong es w).map slotOf = hopAlong es w := by
  have hslots : (es.map stepTo).map slotOf = es.map fun e => some (slotTo e) := by
    rw [List.map_map]
    apply List.map_congr_left
    intro e he
    exact if_neg (hes e he)
  rw [stepAlong, pick_map _ fun i => ENNReal.ofReal_ne_top, hslots]
  rfl

theorem mean_stepAlong (es : List Entry) {w : Nat → ℝ} (hw : ∀ i, 0 ≤ w i) (f : SampledStep → ℝ≥0∞) :
    mean (stepAlong es w) f = if ∑ i ∈ Finset.range es.length, w i = 0 then f .dead
      else ∑ i ∈ Finset.range es.length, ENNReal.ofReal (w i / ∑ j ∈ Finset.range es.length, w j) *
        f (stepTo (es.getD i (0, 0))) := by
  rw [stepAlong, mean_pick_ofReal _ hw, List.length_map]
  congr 1
  apply Finset.sum_congr rfl
  intro i hi
  have hi : i < es.length := Finset.mem_range.mp hi
  rw [List.getD_eq_getElem _ _ (by rwa [List.length_map]), List.getElem_map, List.getD_eq_getElem _ _ hi]

theorem mean_hopAlong (es : List Entry) {w : Nat → ℝ} (hw : ∀ i, 0 ≤ w i) (f : Option NodeStep → ℝ≥0∞) :
    mean (hopAlong es w) f = if ∑ i ∈ Finset.range es.length, w i = 0 then f none
      else ∑ i ∈ Finset.range es.length, ENNReal.ofReal (w i / ∑ j ∈ Finset.range es.length, w j) *
        f (some (slotTo (es.getD i (0, 0)))) := by
  rw [hopAlong, mean_pick_ofReal _ hw, List.length_map]
  congr 1
  apply Finset.sum_congr rfl
  intro i hi
  have hi : i < es.length := Finset.mem_range.mp hi
  rw [List.getD_eq_getElem _ _ (by rwa [List.length_map]), List.getElem_map, List.getD_eq_getElem _ _ hi]

theorem mem_of_hopAlong {es : List Entry} {w : Nat → ℝ} {a : NodeStep} (ha : hopAlong es w (some a) ≠ 0) :
    ∃ e ∈ es, slotTo e = a := by
  rcases mem_of_pick (fun i => ENNReal.ofReal_ne_top) ha with hmem | hnone
  · obtain ⟨e, he, heq⟩ := List.mem_map.mp hmem
    exact ⟨e, he, Option.some.inj heq⟩
  · exact absurd hnone (Option.some_ne_none a)

section shares

variable {es : List Entry} (hes : ∀ e ∈ es, e.2 ≠ kWalkDeadSentinel) {w : Nat → ℝ} (hw : ∀ i, 0 ≤ w i)

include hes hw

theorem hopAlong_none : hopAlong es w none = shareOf es w .dead := by
  classical
  rw [← mean_single, mean_hopAlong es hw]
  unfold shareOf
  dsimp only
  rw [if_pos rfl, if_pos rfl]
  congr 1
  apply Finset.sum_congr rfl
  intro i hi
  have hi : i < es.length := Finset.mem_range.mp hi
  rw [if_neg (Option.some_ne_none _), if_neg]
  rw [List.getD_eq_getElem _ _ hi]
  exact fun h => hes _ (List.getElem_mem hi) (congrArg SampledStep.v h)

omit hes in
theorem hopAlong_some {a : NodeStep} (ha : a.v ≠ kWalkDeadSentinel) : hopAlong es w (some a) = shareOf es w ⟨a.v, a.t⟩ := by
  classical
  rw [← mean_single, mean_hopAlong es hw]
  unfold shareOf
  dsimp only
  rw [if_neg (Option.some_ne_none a).symm, if_neg fun h => ha (congrArg SampledStep.v h).symm]
  congr 1
  apply Finset.sum_congr rfl
  intro i _
  congr 1
  by_cases h : slotTo (es.getD i (0, 0)) = a
  · rw [if_pos (congrArg some h), if_pos]
    rw [← h]
    rfl
  · rw [if_neg fun h' => h (Option.some.inj h'), if_neg]
    intro h'
    apply h
    have hv := congrArg SampledStep.v h'
    have ht := congrArg SampledStep.t h'
    exact (NodeStep.mk.injEq _ _ _ _).mpr ⟨hv, ht⟩

end shares

/-! ### The temporal random walk -/

/-- The law of the walker's next step. -/
noncomputable def stepLaw (graph : TemporalGraph) (bias : Bias ℝ P) (w : Walker) : PMF SampledStep :=
  stepAlong (graph.candidates w.u.toNat w.tPrev) fun i =>
    (bias.fullWeights (graph.timestampsOf w.u.toNat)).getD i 0

/-- The law of the walker's next slot, `none` for the end of the walk. -/
noncomputable def hopLaw (graph : TemporalGraph) (bias : Bias ℝ P) (w : Walker) : PMF (Option NodeStep) :=
  hopAlong (graph.candidates w.u.toNat w.tPrev) fun i =>
    (bias.fullWeights (graph.timestampsOf w.u.toNat)).getD i 0

/-- The law of the walk of at most `n` hops. -/
noncomputable def walkLaw (graph : TemporalGraph) (bias : Bias ℝ P) (n : Nat) (w : Walker) : PMF (List NodeStep) :=
  Paths.law (hopLaw graph bias) Walker.move n w

/-- The probability of the hops `rest` from `start`: each hop has the share of its entry among the entries of the slot
before it that are earlier than that slot, and an end before `n` hops has the share of the dead step. -/
noncomputable def walkProb (graph : TemporalGraph) (bias : Bias ℝ P) (n : Nat) (start : NodeStep)
    (rest : List NodeStep) : ℝ≥0∞ :=
  ∏ i ∈ Finset.range (min (rest.length + 1) n),
    let a := (start :: rest).getD i start
    let next := (rest.map fun b => (⟨b.v, b.t⟩ : SampledStep)).getD i .dead
    shareOf (graph.candidates a.v.toNat a.t) (fun j => (bias.fullWeights (graph.timestampsOf a.v.toNat)).getD j 0) next

section walk

variable {graph : TemporalGraph} (hg : graph.WellFormed) {bias : Bias ℝ P}
  (hexact : ∀ ts, bias.ExactOnSlices ts)

/-- Where the walker goes it finds a vertex of the graph. -/
def Walker.InGraph (graph : TemporalGraph) (w : Walker) : Prop := Tea.InGraph graph w.slot

theorem Walker.inGraph_of_lt {w : Walker} {n : Nat} (hn : graph.numVertices = n) (hu : 0 ≤ w.u ∧ w.u < n) :
    w.InGraph graph := by
  rw [← hn] at hu
  exact hu

include hg in
theorem candidates_target {w : Walker} (hw : w.InGraph graph) {e : Entry}
    (he : e ∈ graph.candidates w.u.toNat w.tPrev) : 0 ≤ e.2 ∧ e.2 < graph.numVertices := by
  have hu : w.u.toNat < graph.numVertices := InGraph.toNat_lt hw
  have hmem : e ∈ graph.entriesOf w.u.toNat := List.mem_of_mem_take he
  obtain ⟨i, hi, rfl⟩ := List.mem_iff_getElem.mp hmem
  have hdegree : i < graph.degree w.u.toNat := by rwa [length_entriesOf hg hu] at hi
  have htarget := hg.target_getD_mem hu hdegree
  have hlen : i < (graph.targetsOf w.u.toNat).length := by rwa [hg.length_targets _ hu]
  rw [List.getD_eq_getElem _ _ hlen] at htarget
  simpa only [TemporalGraph.entriesOf, List.getElem_zip] using htarget

theorem weights_nonneg {bias : Bias ℝ P} (hexact : ∀ ts, bias.ExactOnSlices ts) (ts : List Int) (i : Nat) :
    0 ≤ (bias.fullWeights ts).getD i 0 :=
  getD_nonneg (hexact ts).1.nonneg i

include hg

theorem candidates_live {w : Walker} (hw : w.InGraph graph) {e : Entry}
    (he : e ∈ graph.candidates w.u.toNat w.tPrev) : e.2 ≠ kWalkDeadSentinel := by
  have htarget := (candidates_target hg hw he).1
  intro h
  rw [h] at htarget
  exact absurd htarget (by decide)

theorem hopLaw_move {w : Walker} (hw : w.InGraph graph) {a : NodeStep} (ha : hopLaw graph bias w (some a) ≠ 0) :
    (w.move a).InGraph graph := by
  obtain ⟨e, he, rfl⟩ := mem_of_hopAlong ha
  exact candidates_target hg hw he

theorem stepOf_hasLaw {w : Walker} (hw : w.InGraph graph) {ws : List ℝ} (hws : ∀ x ∈ ws, 0 ≤ x)
    {choice : Draw ℝ (Option Int)} (hdead : candidateTotal graph ws w.u.toNat w.tPrev = 0 →
      stepOf graph w.u.toNat <$> choice = pure .dead)
    (hlaw : candidateTotal graph ws w.u.toNat w.tPrev ≠ 0 → ∀ f, choice.expect f =
      candidateMean graph ws w.u.toNat w.tPrev f) :
    (stepOf graph w.u.toNat <$> choice).HasLaw
      (stepAlong (graph.candidates w.u.toNat w.tPrev) fun i => ws.getD i 0) := by
  have hu : w.u.toNat < graph.numVertices := InGraph.toNat_lt hw
  have htotal : ∑ i ∈ Finset.range (graph.candidates w.u.toNat w.tPrev).length, ws.getD i 0 =
      candidateTotal graph ws w.u.toNat w.tPrev := by
    rw [length_candidates hg hu]
    rfl
  intro f
  show _ = mean _ f
  rw [mean_stepAlong _ (getD_nonneg hws), htotal]
  by_cases hS : candidateTotal graph ws w.u.toNat w.tPrev = 0
  · rw [if_pos hS, hdead hS]
    rfl
  · rw [if_neg hS, Draw.expect_map, hlaw hS, candidateMean, length_candidates hg hu]
    apply Finset.sum_congr rfl
    intro i hi
    rw [stepOf_candidate hg hu w.tPrev (Finset.mem_range.mp hi)]

include hexact

theorem patStep_hasLaw (minTrunkSize : Int) {w : Walker} (hw : w.InGraph graph) :
    (patStep graph (Pat.tables graph bias minTrunkSize) bias w.u w.tPrev w.prevU).HasLaw
      (stepLaw graph bias w) := by
  have hu : w.u.toNat < graph.numVertices := InGraph.toNat_lt hw
  obtain ⟨hweights, hrestrict⟩ := hexact (graph.timestampsOf w.u.toNat)
  have hstep := patChoice_exact hg hu w.tPrev hweights hrestrict minTrunkSize {}
  apply stepOf_hasLaw hg hw hweights.nonneg
  · intro hS
    rw [← hstep.dead (.inr hS), fst_samplePat]
    rfl
  · exact patChoice_law hg hu (hweights.length_eq_degree hg hu) hrestrict hweights.nonneg

theorem hpatStep_hasLaw {aux : AuxIndex} (haux : ServesCovers graph aux) {w : Walker} (hw : w.InGraph graph) :
    (hpatStep graph (Hpat.tables graph bias aux) bias w.u w.tPrev w.prevU).HasLaw
      (stepLaw graph bias w) := by
  have hu : w.u.toNat < graph.numVertices := InGraph.toNat_lt hw
  obtain ⟨hweights, hrestrict⟩ := hexact (graph.timestampsOf w.u.toNat)
  have hstep := hpatChoice_exact hg hu w.tPrev hweights hrestrict.onPrefixes haux {}
  apply stepOf_hasLaw hg hw hweights.nonneg
  · intro hS
    rw [← hstep.dead (.inr hS), fst_sampleHpat]
    rfl
  · exact hpatChoice_law hg hu (hweights.length_eq_degree hg hu) hrestrict.onPrefixes hweights.nonneg haux

omit hexact in
theorem hopsOf_hasLaw {step : StepFn ℝ} (hstep : ∀ w : Walker, w.InGraph graph →
      (step w.u w.tPrev w.prevU).HasLaw (stepLaw graph bias w)) (n : Nat) {w : Walker} (hw : w.InGraph graph) :
    (hopsOf step n w.u w.tPrev w.prevU).HasLaw (walkLaw graph bias n w) := by
  have hslots : ∀ w : Walker, w.InGraph graph →
      (slotOf <$> step w.u w.tPrev w.prevU).HasLaw (hopLaw graph bias w) := by
    intro w hw
    rw [hopLaw, ← map_slotOf_stepAlong fun e he => candidates_live hg hw he]
    exact (hstep w hw).map slotOf
  rw [hopsOf_eq_program]
  exact Paths.program_hasLaw hslots (fun w a hw ha => hopLaw_move hg hw ha) n w hw

/-! ### The probability of a walk -/

omit hg hexact in
theorem slot_foldl_move (w : Walker) (rest : List NodeStep) {i : Nat} (hi : i ≤ rest.length) :
    ((rest.take i).foldl Walker.move w).slot = (w.slot :: rest).getD i w.slot := by
  cases i with
  | zero => rfl
  | succ i =>
      have hi : i < rest.length := hi
      rw [List.take_succ_eq_append_getElem hi, List.foldl_append, List.getD_cons_succ, List.getD_eq_getElem _ _ hi]
      rfl

/-- **The probability of a walk** is the product of the shares along it. -/
theorem walkLaw_apply (n : Nat) {w : Walker} (hw : w.InGraph graph) (rest : List NodeStep)
    [Decidable (rest.length ≤ n ∧ ∀ a ∈ rest, InGraph graph a)] : walkLaw graph bias n w rest =
      if rest.length ≤ n ∧ ∀ a ∈ rest, InGraph graph a then walkProb graph bias n w.slot rest else 0 := by
  have hmove : ∀ (w : Walker) a, w.InGraph graph → hopLaw graph bias w (some a) ≠ 0 → (w.move a).InGraph graph :=
    fun w a hw ha => hopLaw_move hg hw ha
  by_cases hin : ∀ a ∈ rest, InGraph graph a
  · rw [walkLaw, Paths.law_apply]
    by_cases hlen : rest.length ≤ n
    swap
    · rw [if_neg hlen, if_neg fun h => hlen h.1]
    rw [if_pos hlen, if_pos ⟨hlen, hin⟩, walkProb]
    apply Finset.prod_congr rfl
    intro i hi
    have hi : i ≤ rest.length := by
      rw [Finset.mem_range] at hi
      omega
    have hslot := slot_foldl_move w rest hi
    have hstate : ((rest.take i).foldl Walker.move w).InGraph graph := by
      show InGraph graph ((rest.take i).foldl Walker.move w).slot
      rw [hslot]
      cases i with
      | zero => exact hw
      | succ i =>
          rw [List.getD_cons_succ, List.getD_eq_getElem _ _ hi]
          exact hin _ (List.getElem_mem hi)
    have hes : ∀ e ∈ graph.candidates ((rest.take i).foldl Walker.move w).u.toNat
        ((rest.take i).foldl Walker.move w).tPrev, e.2 ≠ kWalkDeadSentinel := fun e he => candidates_live hg hstate he
    dsimp only
    rw [← hslot, hopLaw]
    rcases Nat.lt_or_ge i rest.length with hlt | hge
    · have hlive : rest[i].v ≠ kWalkDeadSentinel := by
        have hnonneg := (hin _ (List.getElem_mem hlt)).1
        intro h
        rw [h] at hnonneg
        exact absurd hnonneg (by decide)
      rw [List.getElem?_eq_getElem hlt, hopAlong_some (weights_nonneg hexact _) hlive,
        List.getD_eq_getElem _ _ (by rwa [List.length_map]), List.getElem_map]
      rfl
    · rw [List.getElem?_eq_none hge, hopAlong_none hes (weights_nonneg hexact _),
        List.getD_eq_default _ _ (by rwa [List.length_map])]
      rfl
  · rw [if_neg fun h => hin h.2]
    by_contra hne
    apply hin
    intro a ha
    obtain ⟨i, hi, rfl⟩ := List.mem_iff_getElem.mp ha
    have hstate := Paths.inv_of_law_ne_zero hmove hw hne (i + 1)
    show InGraph graph rest[i]
    have hslot := slot_foldl_move w rest hi
    rw [List.getD_cons_succ, List.getD_eq_getElem _ _ hi] at hslot
    rwa [Walker.InGraph, hslot] at hstate

end walk

/-! ### The samplers on built tables -/

/-- The samplers of `run_walks_pat` and `run_walks_hpat`, on tables that the code has built. -/
inductive BuiltSampler (graph : TemporalGraph) (bias : Bias ℝ P) : Sampler ℝ → Prop
  | pat (pat : Pat ℝ P) (minTrunkSize : Int) (τ : ForSchedule graph.numVertices) :
      BuiltSampler graph bias (patSampler graph (pat.build graph bias minTrunkSize τ) bias)
  | hpat {hpat : Hpat ℝ P} {auxBudgetBytes : Nat} (hrenews : hpat.Renews auxBudgetBytes)
      (τ τ' : ForSchedule graph.numVertices) :
      BuiltSampler graph bias (hpatSampler graph (hpat.build graph bias auxBudgetBytes τ τ') bias)

theorem Sampler.Returns.unique {sample : Sampler R} {step step' : StepFn R} (h : sample.Returns step)
    (h' : sample.Returns step') : step = step' := by
  funext u tPrev prevU
  rw [← h u tPrev prevU {}, h' u tPrev prevU {}]

theorem BuiltSampler.returns {graph : TemporalGraph} {bias : Bias ℝ P} {sample : Sampler ℝ}
    (h : BuiltSampler graph bias sample) : ∃ step, sample.Returns step := by
  cases h with
  | pat => exact ⟨_, patSampler_returns graph _ bias⟩
  | hpat => exact ⟨_, hpatSampler_returns graph _ bias⟩

section built

variable {graph : TemporalGraph} (hg : graph.WellFormed) {bias : Bias ℝ P} (hexact : ∀ ts, bias.ExactOnSlices ts)
  {sample : Sampler ℝ} (h : BuiltSampler graph bias sample)

include hg hexact h

theorem BuiltSampler.step_hasLaw {step : StepFn ℝ} (hreturns : sample.Returns step) {w : Walker} (hw : w.InGraph graph) :
    (step w.u w.tPrev w.prevU).HasLaw (stepLaw graph bias w) := by
  cases h with
  | pat pat minTrunkSize τ =>
      rw [Pat.build_eq hg] at hreturns
      rw [hreturns.unique (patSampler_returns graph _ bias)]
      exact patStep_hasLaw hg hexact minTrunkSize hw
  | hpat hrenews τ τ' =>
      obtain ⟨aux, haux, htables⟩ := Hpat.build_renewed hg bias hrenews τ τ'
      rw [htables] at hreturns
      rw [hreturns.unique (hpatSampler_returns graph _ bias)]
      exact hpatStep_hasLaw hg hexact haux hw

theorem BuiltSampler.hops_hasLaw (n : Nat) {w : Walker} (hw : w.InGraph graph) (scratch : SamplerScratch ℝ) :
    (Prod.fst <$> hops sample n w.u w.tPrev w.prevU scratch).HasLaw (walkLaw graph bias n w) := by
  obtain ⟨step, hreturns⟩ := h.returns
  rw [fst_hops hreturns]
  exact hopsOf_hasLaw hg (fun w hw => h.step_hasLaw hg hexact hreturns hw) n hw

end built

instance (graph : TemporalGraph) (a : NodeStep) : Decidable (InGraph graph a) :=
  inferInstanceAs (Decidable (0 ≤ a.v ∧ a.v < graph.numVertices))

/-- **Both samplers walk by the law of the temporal random walk**: on a built graph, from every vertex, for every limit
on the hops, with every layout of the tables and whatever is left in the scratch. -/
theorem walks_hasLaw (S : StdSort) (self : TemporalGraph) {edges : List Edge} {numVertices : Int} {isDirected : Bool}
    (σ : Schedule edges isDirected) (hin : EndpointsIn edges (vertexCount edges numVertices)) {bias : Bias ℝ P}
    (hexact : ∀ ts, bias.ExactOnSlices ts) {u : Int} (hu : 0 ≤ u ∧ u < vertexCount edges numVertices) (n : Nat) :
    let graph := TemporalGraph.build S self edges numVertices isDirected σ
    let law := walkLaw graph bias n (Walker.ofStart u)
    (∀ sample, BuiltSampler graph bias sample → ∀ scratch : SamplerScratch ℝ,
      (Prod.fst <$> hops sample n u kSentinelStartTimestamp (-1) scratch).HasLaw law) ∧
    ∀ rest, law rest = if rest.length ≤ n ∧ ∀ a ∈ rest, InGraph graph a then
      walkProb graph bias n ⟨u, kSentinelStartTimestamp⟩ rest else 0 := by
  intro graph law
  have hg : graph.WellFormed := TemporalGraph.build_wellFormed S self σ hin
  have hw : (Walker.ofStart u).InGraph graph := Walker.inGraph_of_lt (TemporalGraph.numVertices_build S self σ hin) hu
  clear_value graph
  exact ⟨fun sample hsample scratch => hsample.hops_hasLaw hg hexact n hw scratch,
    fun rest => walkLaw_apply hg hexact n hw rest⟩

theorem walks_hasLaw_linear :
    let edges : List Edge := [⟨0, 1, 5⟩, ⟨2, 1, 4⟩, ⟨1, 0, 3⟩]
    let graph := TemporalGraph.build StdSort.stable {} edges 3 true (Schedule.serial edges true)
    (Prod.fst <$> hops (patSampler graph (Pat.build {} graph linearBias kPatTrunkSizeMin (ForSchedule.serial _))
      linearBias) 79 1 kSentinelStartTimestamp (-1) {}).HasLaw (walkLaw graph linearBias 79 (Walker.ofStart 1)) :=
  (walks_hasLaw StdSort.stable {} (Schedule.serial _ true) (by unfold EndpointsIn; decide) linearBias_exact
    (by decide) 79).1 _ (.pat {} kPatTrunkSizeMin (ForSchedule.serial _)) {}

end Tea
