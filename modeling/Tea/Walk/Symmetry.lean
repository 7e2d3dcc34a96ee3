import Tea.Sampling.Softmax
import Tea.Walk.Input
import Tea.Walk.Node2vecLaw
/-!
# What names and units change

Names of vertices carry no meaning, and of the times only what the bias makes of them: renaming an input renames its walk
law (`walks_renamed`). Uniform walks depend on the order of the times only, exponential walks with a time scale on the
times up to an affine change of units (`exponential_respects`). An undirected input walks like the directed one that has
every edge both ways (`walks_undirected`).
-/

namespace Tea

open Arith Laws
open scoped ENNReal

variable {P : Type}

/-! ### Walk laws with a factor -/

/-- The law of the walker's next step on the input when an entry has its weight times a factor, which depends on the
walker's previous vertex and the target. -/
noncomputable def factorLaw (edges : List Edge) (isDirected : Bool) (bias : Bias ℝ P) (b : Int → Int → ℝ) (w : Walker) :
    PMF SampledStep :=
  stepBy (inputCandidates edges isDirected w) fun e =>
    bias.weightAt (inputTimes edges isDirected w.u.toNat) e.1 * b w.prevU e.2

/-- The law of the walk of at most `n` hops with such steps. -/
noncomputable def factorWalkLaw (edges : List Edge) (isDirected : Bool) (bias : Bias ℝ P) (b : Int → Int → ℝ) (n : Nat)
    (w : Walker) : PMF (List NodeStep) :=
  Paths.law (fun w => (factorLaw edges isDirected bias b w).map slotOf) Walker.move n w

theorem inputWalkLaw_eq_factor (edges : List Edge) (isDirected : Bool) (bias : Bias ℝ P) (n : Nat) (w : Walker) :
    inputWalkLaw edges isDirected bias n w = factorWalkLaw edges isDirected bias (fun _ _ => 1) n w := by
  unfold factorWalkLaw factorLaw
  simp only [mul_one]
  rfl

theorem inputNode2vecWalkLaw_eq_factor (edges : List Edge) (isDirected : Bool) (exp : ℝ → ℝ) (self : Node2VecBias ℝ)
    (n : Nat) (w : Walker) : inputNode2vecWalkLaw edges isDirected exp self n w =
      factorWalkLaw edges isDirected (self.toBias exp) (inputBeta edges self) n w := rfl

theorem factorWalkLaw_perm {edges edges' : List Edge} (hperm : edges'.Perm edges) (isDirected : Bool) (bias : Bias ℝ P)
    (b : Int → Int → ℝ) (n : Nat) (w : Walker) :
    factorWalkLaw edges' isDirected bias b n w = factorWalkLaw edges isDirected bias b n w := by
  have hstep : ∀ w, factorLaw edges' isDirected bias b w = factorLaw edges isDirected bias b w := by
    intro w
    rw [factorLaw, inputTimes_perm hperm, stepBy_perm (inputCandidates_perm hperm isDirected w)]
    rfl
  rw [factorWalkLaw, funext fun w => congrArg (PMF.map slotOf) (hstep w)]
  rfl

theorem inputBeta_congr {edges edges' : List Edge} (h : ∀ x y, Adjacent edges' x y ↔ Adjacent edges x y)
    (self : Node2VecBias ℝ) : inputBeta edges' self = inputBeta edges self := by
  have hadj : Adjacent edges' = Adjacent edges := by
    funext x y
    exact propext (h x y)
  unfold inputBeta
  rw [hadj]

/-! ### Renaming -/

/-- New names for the vertices below `n`, which become vertices below `n'`, and new times, in the same order. The names
of no vertex and of no time stay. -/
structure Renaming (edges : List Edge) (n n' : Nat) where
  vertex : Int → Int
  time : Int → Int
  vertex_mem : ∀ x : Int, 0 ≤ x ∧ x < n → 0 ≤ vertex x ∧ vertex x < n'
  vertex_inj : ∀ x y : Int, 0 ≤ x ∧ x < n → 0 ≤ y ∧ y < n → vertex x = vertex y → x = y
  vertex_none : vertex (-1) = -1
  time_lt : StrictMonoOn time (insert kSentinelStartTimestamp (edgeTimes edges : Set Int))
  time_start : time kSentinelStartTimestamp = kSentinelStartTimestamp

namespace Renaming

variable {edges : List Edge} {n n' : Nat} (φ : Renaming edges n n')

def edge (e : Edge) : Edge := ⟨φ.vertex e.u, φ.vertex e.v, φ.time e.t⟩

def entry (e : Entry) : Entry := (φ.time e.1, φ.vertex e.2)

def slot (a : NodeStep) : NodeStep := ⟨φ.vertex a.v, φ.time a.t⟩

def walker (w : Walker) : Walker := ⟨φ.vertex w.u, φ.time w.tPrev, φ.vertex w.prevU⟩

/-- The walker is at a vertex and a time that have a new name. -/
structure Knows (edges : List Edge) (n : Nat) (w : Walker) : Prop where
  vertex : 0 ≤ w.u ∧ w.u < n
  time : w.tPrev = kSentinelStartTimestamp ∨ w.tPrev ∈ edgeTimes edges
  previous : w.prevU = -1 ∨ 0 ≤ w.prevU ∧ w.prevU < n

omit φ in
theorem knows_start {u : Int} (hu : 0 ≤ u ∧ u < n) : Knows edges n (Walker.ofStart u) := ⟨hu, .inl rfl, .inl rfl⟩

theorem walker_ofStart (u : Int) : φ.walker (Walker.ofStart u) = Walker.ofStart (φ.vertex u) := by
  unfold walker Walker.ofStart
  rw [φ.time_start, φ.vertex_none]

theorem vertex_eq_iff {x y : Int} (hx : 0 ≤ x ∧ x < n) (hy : 0 ≤ y ∧ y < n) : φ.vertex x = φ.vertex y ↔ x = y :=
  ⟨φ.vertex_inj x y hx hy, congrArg φ.vertex⟩

theorem time_lt_iff {s t : Int} (hs : s ∈ edgeTimes edges) (ht : t = kSentinelStartTimestamp ∨ t ∈ edgeTimes edges) :
    φ.time s < φ.time t ↔ s < t := by
  have hs' : s ∈ insert kSentinelStartTimestamp (edgeTimes edges : Set Int) := .inr hs
  have ht' : t ∈ insert kSentinelStartTimestamp (edgeTimes edges : Set Int) := ht
  exact φ.time_lt.lt_iff_lt hs' ht'

variable (hin : EndpointsIn edges n)

include hin

omit φ in
theorem mem_entry {isDirected : Bool} {v : Nat} {e : Entry} (he : e ∈ inbound edges isDirected v) :
    e.1 ∈ edgeTimes edges ∧ 0 ≤ e.2 ∧ e.2 < n := by
  obtain ⟨e', he', ht, hends⟩ := mem_inbound.mp (show (e.1, e.2) ∈ _ from he)
  refine ⟨List.mem_toFinset.mpr (List.mem_map.mpr ⟨e', he', ht⟩), ?_⟩
  rcases hends with ⟨-, hu⟩ | ⟨-, -, hv⟩
  · exact hu ▸ (hin e' he').1
  · exact hv ▸ (hin e' he').2

theorem inbound_rename (isDirected : Bool) {x : Int} (hx : 0 ≤ x ∧ x < n) :
    inbound (edges.map φ.edge) isDirected (φ.vertex x).toNat = (inbound edges isDirected x.toNat).map φ.entry := by
  have hside : ∀ (endpoint other : Edge → Int), (∀ e ∈ edges, 0 ≤ endpoint e ∧ endpoint e < n) →
      (∀ e, endpoint (φ.edge e) = φ.vertex (endpoint e)) → (∀ e, other (φ.edge e) = φ.vertex (other e)) →
      ((edges.map φ.edge).filter fun e => endpoint e = ((φ.vertex x).toNat : Int)).map (fun e => (e.t, other e)) =
        ((edges.filter fun e => endpoint e = (x.toNat : Int)).map fun e => (e.t, other e)).map φ.entry := by
    intro endpoint other hend hedge hother
    have hsame : ∀ e ∈ edges, decide (endpoint (φ.edge e) = ((φ.vertex x).toNat : Int)) =
        decide (endpoint e = (x.toNat : Int)) := by
      intro e he
      rw [hedge, Int.toNat_of_nonneg (φ.vertex_mem x hx).1, Int.toNat_of_nonneg hx.1, decide_eq_decide]
      exact φ.vertex_eq_iff (hend e he) hx
    have hfilter : edges.filter ((fun e => decide (endpoint e = ((φ.vertex x).toNat : Int))) ∘ φ.edge) =
        edges.filter fun e => endpoint e = (x.toNat : Int) := List.filter_congr hsame
    rw [List.filter_map, hfilter, List.map_map, List.map_map]
    apply List.map_congr_left
    intro e _
    show (φ.time e.t, other (φ.edge e)) = _
    rw [hother]
    rfl
  unfold inbound
  rw [List.map_append, hside Edge.v Edge.u (fun e he => (hin e he).2) (fun _ => rfl) fun _ => rfl]
  congr 1
  split_ifs
  · rfl
  · exact hside Edge.u Edge.v (fun e he => (hin e he).1) (fun _ => rfl) fun _ => rfl

theorem inputCandidates_rename (isDirected : Bool) {w : Walker} (hw : Knows edges n w) :
    inputCandidates (edges.map φ.edge) isDirected (φ.walker w) = (inputCandidates edges isDirected w).map φ.entry := by
  unfold inputCandidates
  rw [show (φ.walker w).u = φ.vertex w.u from rfl, φ.inbound_rename hin isDirected hw.vertex, List.filter_map]
  congr 1
  apply List.filter_congr
  intro e he
  exact decide_eq_decide.mpr (φ.time_lt_iff (mem_entry hin he).1 hw.time)

theorem inputTimes_rename (isDirected : Bool) {x : Int} (hx : 0 ≤ x ∧ x < n) :
    inputTimes (edges.map φ.edge) isDirected (φ.vertex x).toNat = (inputTimes edges isDirected x.toNat).map φ.time := by
  have hmem : ∀ t ∈ inputTimes edges isDirected x.toNat, t ∈ edgeTimes edges := by
    intro t ht
    obtain ⟨e, he, rfl⟩ := List.mem_map.mp ((List.mergeSort_perm _ _).mem_iff.mp ht)
    exact (mem_entry hin he).1
  refine List.Perm.eq_of_pairwise (fun a b _ _ => le_antisymm) (List.pairwise_mergeSort' (r := (· ≤ ·)) _) ?_ ?_
  · rw [List.pairwise_map]
    apply (List.pairwise_mergeSort' (r := (· ≤ ·)) _).imp_of_mem
    intro s t hs ht hle
    exact φ.time_lt.monotoneOn (.inr (hmem s hs)) (.inr (hmem t ht)) hle
  · refine (List.mergeSort_perm _ _).trans ?_
    rw [φ.inbound_rename hin isDirected hx, List.map_map, show Prod.fst ∘ φ.entry = φ.time ∘ Prod.fst from rfl,
      ← List.map_map]
    exact ((List.mergeSort_perm _ _).map _).symm

omit hin in
theorem adjacent_rename (hin : EndpointsIn edges n) {x y : Int} (hx : 0 ≤ x ∧ x < n) (hy : 0 ≤ y ∧ y < n) :
    Adjacent (edges.map φ.edge) (φ.vertex x) (φ.vertex y) ↔ Adjacent edges x y := by
  have hends : ∀ e ∈ edges, ((φ.edge e).u = φ.vertex x ∧ (φ.edge e).v = φ.vertex y ∨
      (φ.edge e).u = φ.vertex y ∧ (φ.edge e).v = φ.vertex x) ↔ (e.u = x ∧ e.v = y ∨ e.u = y ∧ e.v = x) := by
    intro e he
    obtain ⟨hu, hv⟩ := hin e he
    exact or_congr (and_congr (φ.vertex_eq_iff hu hx) (φ.vertex_eq_iff hv hy))
      (and_congr (φ.vertex_eq_iff hu hy) (φ.vertex_eq_iff hv hx))
  constructor
  · rintro ⟨e', he', h⟩
    obtain ⟨e, he, rfl⟩ := List.mem_map.mp he'
    exact ⟨e, he, (hends e he).mp h⟩
  · rintro ⟨e, he, h⟩
    exact ⟨φ.edge e, List.mem_map.mpr ⟨e, he, rfl⟩, (hends e he).mpr h⟩

theorem inputBeta_rename (self : Node2VecBias ℝ) {prevU v : Int} (hprev : prevU = -1 ∨ 0 ≤ prevU ∧ prevU < n)
    (hv : 0 ≤ v ∧ v < n) : inputBeta (edges.map φ.edge) self (φ.vertex prevU) (φ.vertex v) =
      inputBeta edges self prevU v := by
  unfold inputBeta
  rcases hprev with rfl | hprev
  · rw [φ.vertex_none, if_pos (by decide), if_pos (by decide)]
  · have hprev' := φ.vertex_mem prevU hprev
    rw [if_neg (not_lt.mpr hprev'.1), if_neg (not_lt.mpr hprev.1)]
    simp only [φ.vertex_eq_iff hv hprev]
    by_cases hadj : Adjacent edges prevU v
    · rw [if_pos hadj, if_pos ((φ.adjacent_rename hin hprev hv).mpr hadj)]
    · rw [if_neg hadj, if_neg (mt (φ.adjacent_rename hin hprev hv).mp hadj)]

end Renaming

/-- The bias gives the times of `T` the weights that it gives the times after `time`. -/
def Bias.Respects (bias : Bias ℝ P) (time : Int → Int) (T : Finset Int) : Prop :=
  ∀ ts : List Int, (∀ t ∈ ts, t ∈ T) → bias.fullWeights (ts.map time) = bias.fullWeights ts

theorem uniform_respects (time : Int → Int) (T : Finset Int) : (uniformBias : Bias ℝ Unit).Respects time T := by
  intro ts _
  unfold uniformBias Bias.fullWeights
  rw [Bias.weights_ofEdgeWeight, Bias.weights_ofEdgeWeight, List.length_map]

/-- A shift of the times, or with a time scale any change of the unit. -/
theorem exponential_respects (exp : ℝ → ℝ) (self : ExponentialBias ℝ) {time : Int → Int} {T : Finset Int} {c d : Int}
    (hc : 0 < c) (htime : ∀ t ∈ T, time t = c * t + d) (hunit : c = 1 ∨ 0 < self.timescaleBound) :
    (self.toBias exp).Respects time T := by
  intro ts hts
  have hget : ∀ i < ts.length, ((ts.map time).getD i 0 : ℝ) = c * ts.getD i 0 + d := by
    intro i hi
    rw [List.getD_eq_getElem _ _ (by rwa [List.length_map]), List.getD_eq_getElem _ _ hi, List.getElem_map,
      htime _ (hts _ (List.getElem_mem hi))]
    push_cast
    rfl
  apply List.ext_getElem
  · rw [Bias.length_fullWeights, Bias.length_fullWeights, List.length_map]
  intro i hi hi'
  rw [Bias.length_fullWeights] at hi'
  have hne : ts ≠ [] := List.ne_nil_of_length_pos (by omega)
  have hc' : (0 : ℝ) < c := Int.cast_pos.mpr hc
  rw [← List.getD_eq_getElem _ 0, ← List.getD_eq_getElem _ 0, getD_fullWeights_params hi',
    getD_fullWeights_params (by rwa [List.length_map]), computePerVertexParams_eq hne,
    computePerVertexParams_eq (by simpa using hne), List.length_map]
  simp only [hget i hi', hget 0 (by omega), hget (ts.length - 1) (by omega)]
  generalize ((ts.getD i 0 : Int) : ℝ) = x
  generalize ((ts.getD 0 0 : Int) : ℝ) = lo
  generalize ((ts.getD (ts.length - 1) 0 : Int) : ℝ) = hi
  have hspan : c * hi + d - (c * lo + d) = c * (hi - lo) := by ring
  have hdiff : c * x + d - (c * hi + d) = c * (x - hi) := by ring
  have hflat : c * (hi - lo) ≤ 0 ↔ hi - lo ≤ 0 := by
    have h := mul_le_mul_iff_right₀ hc' (b := hi - lo) (c := 0)
    rwa [mul_zero] at h
  rw [hspan, hdiff]
  congr 1
  simp only [hflat]
  split_ifs with hzero hbound
  · rw [mul_zero, mul_zero]
  · have hpos : hi - lo ≠ 0 := (not_le.mp hzero).ne'
    field_simp
  · rw [hunit.resolve_right hbound, Int.cast_one, one_mul]

section rename

variable {edges : List Edge} {n n' : Nat} (φ : Renaming edges n n') (hin : EndpointsIn edges n) (isDirected : Bool)
  {bias : Bias ℝ P} (htime : bias.ByTime) (hbias : bias.Respects φ.time (edgeTimes edges))

include hin htime hbias

theorem weightAt_rename {x : Int} (hx : 0 ≤ x ∧ x < n) {e : Entry} (he : e ∈ inbound edges isDirected x.toNat) :
    bias.weightAt (inputTimes (edges.map φ.edge) isDirected (φ.vertex x).toNat) (φ.time e.1) =
      bias.weightAt (inputTimes edges isDirected x.toNat) e.1 := by
  have hmem : ∀ e ∈ inbound edges isDirected x.toNat, e.1 ∈ inputTimes edges isDirected x.toNat :=
    fun e he => (List.mergeSort_perm _ _).mem_iff.mpr (List.mem_map.mpr ⟨e, he, rfl⟩)
  have hedges : ∀ t ∈ inputTimes edges isDirected x.toNat, t ∈ edgeTimes edges := by
    intro t ht
    obtain ⟨e, he, rfl⟩ := List.mem_map.mp ((List.mergeSort_perm _ _).mem_iff.mp ht)
    exact (Renaming.mem_entry hin he).1
  have hsame := hbias _ hedges
  rw [htime.fullWeights_eq, htime.fullWeights_eq, List.map_map] at hsame
  rw [φ.inputTimes_rename hin isDirected hx]
  exact List.map_inj_left.mp hsame e.1 (hmem e he)

theorem factorLaw_rename {b b' : Int → Int → ℝ} {w : Walker} (hw : Renaming.Knows edges n w)
    (hb : ∀ v : Int, 0 ≤ v ∧ v < n → b' (φ.vertex w.prevU) (φ.vertex v) = b w.prevU v) :
    (factorLaw (edges.map φ.edge) isDirected bias b' (φ.walker w)).map slotOf =
      ((factorLaw edges isDirected bias b w).map slotOf).map (Option.map φ.slot) := by
  have hin' : ∀ e ∈ inputCandidates edges isDirected w, e ∈ inbound edges isDirected w.u.toNat :=
    fun e he => (List.mem_filter.mp he).1
  have hlive : ∀ v : Int, 0 ≤ v → v ≠ kWalkDeadSentinel := fun v hv h => absurd (h ▸ hv) (by decide)
  have hes : ∀ e ∈ inputCandidates edges isDirected w, e.2 ≠ kWalkDeadSentinel :=
    fun e he => hlive e.2 (Renaming.mem_entry hin (hin' e he)).2.1
  have hes' : ∀ e ∈ (inputCandidates edges isDirected w).map φ.entry, e.2 ≠ kWalkDeadSentinel := by
    intro e' he'
    obtain ⟨e, he, rfl⟩ := List.mem_map.mp he'
    exact hlive _ (φ.vertex_mem e.2 (Renaming.mem_entry hin (hin' e he)).2).1
  have hslots : ((inputCandidates edges isDirected w).map φ.entry).map (fun e => some (slotTo e)) =
      ((inputCandidates edges isDirected w).map fun e => some (slotTo e)).map (Option.map φ.slot) := by
    rw [List.map_map, List.map_map]
    rfl
  unfold factorLaw
  rw [φ.inputCandidates_rename hin isDirected hw, stepBy, stepBy, map_slotOf_stepAlong hes', map_slotOf_stepAlong hes,
    hopAlong, hopAlong, pick_map _ fun i => ENNReal.ofReal_ne_top, hslots]
  apply pick_congr _ (fun i => ENNReal.ofReal_ne_top) fun i => ENNReal.ofReal_ne_top
  intro i hi
  rw [List.length_map, List.length_map] at hi
  have hmem := hin' _ (List.getElem_mem hi)
  rw [List.getD_eq_getElem _ _ (by rwa [List.length_map]), List.getElem_map, List.getD_eq_getElem _ _ hi]
  congr 1
  exact congrArg₂ (· * ·) (weightAt_rename φ hin isDirected htime hbias hw.vertex hmem)
    (hb _ (Renaming.mem_entry hin hmem).2)

theorem factorWalkLaw_rename {b b' : Int → Int → ℝ} (hb : ∀ prevU v : Int, prevU = -1 ∨ 0 ≤ prevU ∧ prevU < n →
      0 ≤ v ∧ v < n → b' (φ.vertex prevU) (φ.vertex v) = b prevU v) (k : Nat) {w : Walker}
    (hw : Renaming.Knows edges n w) : factorWalkLaw (edges.map φ.edge) isDirected bias b' k (φ.walker w) =
      (factorWalkLaw edges isDirected bias b k w).map (List.map φ.slot) := by
  apply Paths.law_map φ.walker φ.slot _ _ k w hw
  · exact fun w hw => factorLaw_rename φ hin isDirected htime hbias hw fun v hv => hb w.prevU v hw.previous hv
  · intro w a hw ha
    obtain ⟨e, he, rfl⟩ := mem_of_slot ha
    obtain ⟨ht, hv⟩ := Renaming.mem_entry hin (List.mem_filter.mp he).1
    exact ⟨⟨hv, .inr ht, .inr hw.vertex⟩, rfl⟩

end rename

/-- **Renaming an input renames its walks.** `edges` need not be in the order, nor built by the schedule, of the renamed
input; the bias has to give the renamed times the old weights. -/
theorem walks_renamed (S : StdSort) (self : TemporalGraph) {edges edges' : List Edge} {n : Nat} {numVertices : Int}
    (hin : EndpointsIn edges n) (φ : Renaming edges n (vertexCount edges' numVertices))
    (hperm : edges'.Perm (edges.map φ.edge)) {isDirected : Bool} (σ : Schedule edges' isDirected) {u : Int}
    (hu : 0 ≤ u ∧ u < n) (k : Nat) (scratch : SamplerScratch ℝ) :
    let graph := TemporalGraph.build S self edges' numVertices isDirected σ
    (∀ bias : Bias ℝ P, (∀ ts, bias.ExactOnSlices ts) → bias.ByTime → bias.Respects φ.time (edgeTimes edges) →
      ∀ sample, BuiltSampler graph bias sample →
        (Prod.fst <$> hops sample k (φ.vertex u) kSentinelStartTimestamp (-1) scratch).HasLaw
          ((inputWalkLaw edges isDirected bias k (.ofStart u)).map (List.map φ.slot))) ∧
    ∀ (exp : ℝ → ℝ) (self : Node2VecBias ℝ), (∀ x, 0 ≤ exp x) → exp 0 = 1 → 0 < self.p → 0 < self.q →
      (self.toBias exp).Respects φ.time (edgeTimes edges) → ∀ (sets : NeighborSets) (ρ : OutSchedule graph), ∀ sample,
        BuiltNode2vec graph exp self (sets.build graph isDirected ρ) sample →
          (Prod.fst <$> hops sample k (φ.vertex u) kSentinelStartTimestamp (-1) scratch).LawWithin
            ((k - 1 : Nat) * ENNReal.ofReal ((1 - self.minRatio) ^ 1024))
            ((inputNode2vecWalkLaw edges isDirected exp self k (.ofStart u)).map (List.map φ.slot)) := by
  intro graph
  have hrenamed : EndpointsIn (edges.map φ.edge) (vertexCount edges' numVertices) := by
    intro e' he'
    obtain ⟨e, he, rfl⟩ := List.mem_map.mp he'
    exact ⟨φ.vertex_mem e.u (hin e he).1, φ.vertex_mem e.v (hin e he).2⟩
  have hin' : EndpointsIn edges' (vertexCount edges' numVertices) := fun e he => hrenamed e (hperm.mem_iff.mp he)
  obtain ⟨hg, hn, hstores⟩ : graph.WellFormed ∧ graph.numVertices = vertexCount edges' numVertices ∧
      StoresInput graph edges' graph.numVertices isDirected := build_walkable S self σ hin'
  have hw : (Walker.ofStart (φ.vertex u)).InGraph graph := Walker.inGraph_of_lt hn (φ.vertex_mem u hu)
  have hknows : Renaming.Knows edges n (.ofStart u) := Renaming.knows_start hu
  constructor
  · intro bias hexact htime hbias sample hsample
    have hlaw : factorWalkLaw (edges.map φ.edge) isDirected bias (fun _ _ => 1) k (φ.walker (.ofStart u)) = _ :=
      factorWalkLaw_rename φ hin isDirected htime hbias (fun _ _ _ _ => rfl) k hknows
    rw [← factorWalkLaw_perm hperm, ← inputWalkLaw_eq_factor, ← inputWalkLaw_eq_factor, φ.walker_ofStart] at hlaw
    rw [← hlaw]
    exact hsample.hops_input hg hstores hexact htime k hw scratch
  · intro exp self hexp hzero hp hq hbias sets ρ sample hsample
    have htime : (self.toBias exp).ByTime := ExponentialBias.toBias_byTime exp _
    have hadj : ∀ x y, Adjacent edges' x y ↔ Adjacent (edges.map φ.edge) x y :=
      fun x y => exists_congr fun e => and_congr_left fun _ => hperm.mem_iff
    have hlaw := factorWalkLaw_rename φ hin isDirected htime hbias
      (fun prevU v hprev hv => φ.inputBeta_rename hin self hprev hv) k hknows
    rw [← factorWalkLaw_perm hperm, ← inputBeta_congr hadj, φ.walker_ofStart] at hlaw
    rw [inputNode2vecWalkLaw_eq_factor, ← hlaw]
    exact hsample.start_within hg hstores (hn ▸ hin') hexp hzero hp hq k hw scratch

/-- Vertices 0 and 2 change names, and the times their unit. -/
def twoFromNaught : Renaming [⟨0, 1, 5⟩, ⟨2, 1, 4⟩, ⟨1, 0, 3⟩] 3
    (vertexCount [⟨2, 1, 307⟩, ⟨0, 1, 247⟩, ⟨1, 2, 187⟩] 3) where
  vertex x := if x = 0 then 2 else if x = 2 then 0 else x
  time t := if t = kSentinelStartTimestamp then t else 60 * t + 7
  vertex_mem x hx := by
    show 0 ≤ _ ∧ _ < ((3 : Nat) : Int)
    split_ifs <;> omega
  vertex_inj x y hx hy := by split_ifs <;> omega
  vertex_none := by decide
  time_lt := by
    intro s hs t ht hlt
    simp only [edgeTimes, List.map_cons, List.map_nil, List.coe_toFinset, List.mem_cons, List.not_mem_nil, or_false,
      Set.mem_insert_iff, Set.mem_ofPred_eq, kSentinelStartTimestamp] at hs ht ⊢
    split_ifs <;> omega
  time_start := by decide

theorem walks_renamed_example :
    let edges : List Edge := [⟨0, 1, 5⟩, ⟨2, 1, 4⟩, ⟨1, 0, 3⟩]
    let edges' : List Edge := [⟨2, 1, 307⟩, ⟨0, 1, 247⟩, ⟨1, 2, 187⟩]
    let graph := TemporalGraph.build StdSort.stable {} edges' 3 true (Schedule.serial edges' true)
    let self : Node2VecBias ℝ := { p := 1 / 2, q := 2, timescaleBound := 10 }
    let bias := self.toBias Real.exp
    let pat := Pat.build {} graph bias kPatTrunkSizeMin (ForSchedule.serial _)
    (Prod.fst <$> hops (patSampler graph pat bias) 79 2 kSentinelStartTimestamp (-1) {}).HasLaw
      ((inputWalkLaw edges true bias 79 (.ofStart 0)).map (List.map twoFromNaught.slot)) ∧
    (Prod.fst <$> hops (patNode2vecSampler Real.exp graph pat self (NeighborSets.build {} graph true
      (OutSchedule.serial graph))) 79 2 kSentinelStartTimestamp (-1) {}).LawWithin
        ((79 - 1 : Nat) * ENNReal.ofReal ((1 - self.minRatio) ^ 1024))
        ((inputNode2vecWalkLaw edges true Real.exp self 79 (.ofStart 0)).map (List.map twoFromNaught.slot)) := by
  intro edges edges' graph self bias pat
  have htime : ∀ t ∈ edgeTimes edges, twoFromNaught.time t = 60 * t + 7 := by decide
  have hunit : (60 : Int) = 1 ∨ (0 : ℝ) < (⟨10⟩ : ExponentialBias ℝ).timescaleBound := .inr (by norm_num)
  have hrespects : bias.Respects twoFromNaught.time (edgeTimes edges) :=
    exponential_respects _ _ (by decide) htime hunit
  obtain ⟨hplain, hnode2vec⟩ := walks_renamed StdSort.stable {} (by unfold EndpointsIn; decide) twoFromNaught
    (List.Perm.refl _) (Schedule.serial edges' true) (u := 0) (by decide) 79 {}
  exact ⟨hplain bias (fun ts => ExponentialBias.toBias_exact (fun x => (Real.exp_pos x).le) Real.exp_zero _ ts)
      (ExponentialBias.toBias_byTime _ _) hrespects _ (.pat {} kPatTrunkSizeMin (ForSchedule.serial _)),
    hnode2vec Real.exp self (fun x => (Real.exp_pos x).le) Real.exp_zero (by norm_num [self]) (by norm_num [self])
      hrespects {} (OutSchedule.serial graph) _ (.pat {} kPatTrunkSizeMin (ForSchedule.serial _))⟩

/-! ### Undirected inputs -/

/-- The edge the other way. -/
def Edge.swap (e : Edge) : Edge := ⟨e.v, e.u, e.t⟩

/-- Every edge both ways. -/
def bothWays (edges : List Edge) : List Edge := edges ++ edges.map Edge.swap

theorem inbound_bothWays (edges : List Edge) (v : Nat) : inbound (bothWays edges) true v = inbound edges false v := by
  unfold inbound bothWays
  rw [if_pos rfl, if_neg Bool.false_ne_true, List.append_nil, List.filter_append, List.map_append, List.filter_map,
    List.map_map]
  rfl

theorem adjacent_bothWays (edges : List Edge) (x y : Int) : Adjacent (bothWays edges) x y ↔ Adjacent edges x y := by
  constructor
  · rintro ⟨e', he', h⟩
    rcases List.mem_append.mp he' with hmem | hmem
    · exact ⟨e', hmem, h⟩
    · obtain ⟨e, he, rfl⟩ := List.mem_map.mp hmem
      exact ⟨e, he, h.symm.imp And.symm And.symm⟩
  · rintro ⟨e, he, h⟩
    exact ⟨e, List.mem_append_left _ he, h⟩

theorem factorWalkLaw_bothWays (edges : List Edge) (bias : Bias ℝ P) (b : Int → Int → ℝ) (n : Nat) (w : Walker) :
    factorWalkLaw (bothWays edges) true bias b n w = factorWalkLaw edges false bias b n w := by
  have hstep : factorLaw (bothWays edges) true bias b = factorLaw edges false bias b := by
    funext w
    unfold factorLaw inputCandidates inputTimes
    rw [inbound_bothWays]
  rw [factorWalkLaw, hstep]
  rfl

/-- **An undirected input walks like the directed one with every edge both ways**, in whatever order. -/
theorem walks_undirected (S : StdSort) (self : TemporalGraph) {edges edges' : List Edge} {numVertices : Int}
    (hperm : edges'.Perm (bothWays edges)) (σ : Schedule edges' true)
    (hin : EndpointsIn edges' (vertexCount edges' numVertices)) {u : Int}
    (hu : 0 ≤ u ∧ u < vertexCount edges' numVertices) (n : Nat) (scratch : SamplerScratch ℝ) :
    let graph := TemporalGraph.build S self edges' numVertices true σ
    (∀ bias : Bias ℝ P, (∀ ts, bias.ExactOnSlices ts) → bias.ByTime → ∀ sample, BuiltSampler graph bias sample →
      (Prod.fst <$> hops sample n u kSentinelStartTimestamp (-1) scratch).HasLaw
        (inputWalkLaw edges false bias n (.ofStart u))) ∧
    ∀ (exp : ℝ → ℝ) (self : Node2VecBias ℝ), (∀ x, 0 ≤ exp x) → exp 0 = 1 → 0 < self.p → 0 < self.q →
      ∀ (sets : NeighborSets) (ρ : OutSchedule graph), ∀ sample,
        BuiltNode2vec graph exp self (sets.build graph true ρ) sample →
          (Prod.fst <$> hops sample n u kSentinelStartTimestamp (-1) scratch).LawWithin
            ((n - 1 : Nat) * ENNReal.ofReal ((1 - self.minRatio) ^ 1024))
            (inputNode2vecWalkLaw edges false exp self n (.ofStart u)) := by
  intro graph
  obtain ⟨hg, hn, hstores⟩ : graph.WellFormed ∧ graph.numVertices = vertexCount edges' numVertices ∧
      StoresInput graph edges' graph.numVertices true := build_walkable S self σ hin
  have hw : (Walker.ofStart u).InGraph graph := Walker.inGraph_of_lt hn hu
  constructor
  · intro bias hexact htime sample hsample
    rw [inputWalkLaw_eq_factor, ← factorWalkLaw_bothWays, ← factorWalkLaw_perm hperm, ← inputWalkLaw_eq_factor]
    exact hsample.hops_input hg hstores hexact htime n hw scratch
  · intro exp self hexp hzero hp hq sets ρ sample hsample
    have hadj : ∀ x y, Adjacent edges' x y ↔ Adjacent edges x y := by
      intro x y
      rw [← adjacent_bothWays edges]
      exact exists_congr fun e => and_congr_left fun _ => hperm.mem_iff
    rw [inputNode2vecWalkLaw_eq_factor, ← inputBeta_congr hadj, ← factorWalkLaw_bothWays, ← factorWalkLaw_perm hperm,
      ← inputNode2vecWalkLaw_eq_factor]
    exact hsample.start_within hg hstores (hn ▸ hin) hexp hzero hp hq n hw scratch

theorem walks_undirected_uniform :
    let edges : List Edge := [⟨0, 1, 5⟩, ⟨1, 0, 5⟩, ⟨1, 2, 4⟩, ⟨2, 1, 4⟩]
    let graph := TemporalGraph.build StdSort.stable {} edges 3 true (Schedule.serial edges true)
    (Prod.fst <$> hops (patSampler graph (Pat.build {} graph uniformBias kPatTrunkSizeMin (ForSchedule.serial _))
      uniformBias) 79 1 kSentinelStartTimestamp (-1) {}).HasLaw
        (inputWalkLaw [⟨0, 1, 5⟩, ⟨2, 1, 4⟩] false (uniformBias : Bias ℝ Unit) 79 (.ofStart 1)) := by
  intro edges graph
  have hperm : edges.Perm (bothWays [⟨0, 1, 5⟩, ⟨2, 1, 4⟩]) := by decide
  exact (walks_undirected StdSort.stable {} hperm (Schedule.serial edges true) (by unfold EndpointsIn; decide)
    (by decide) 79 {}).1 uniformBias uniformBias_exact uniformBias_byTime _
      (.pat {} kPatTrunkSizeMin (ForSchedule.serial _))

end Tea
