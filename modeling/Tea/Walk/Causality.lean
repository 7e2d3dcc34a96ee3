import Tea.Walk.Symmetry
/-!
# What comes later

A walker at time `t` sees only the edges before `t`. If the bias weighs two edges of a vertex against each other
whatever the other edges are (`Bias.SameRatios`), the rest of the walk has the same law on all inputs that agree before
`t` (`walks_causal`). The factors of node2vec look at the neighbor sets, which know the edges of all times, so there the
inputs must also agree on which vertices are adjacent.
-/

namespace Tea

open Arith Laws
open scoped ENNReal

variable {P : Type}

/-! ### Weights against each other -/

/-- Two times have the same ratio of weights wherever both occur. -/
def Bias.SameRatios (bias : Bias ℝ P) : Prop := ∀ ts ts' : List Int, ts.Pairwise (· ≤ ·) → ts'.Pairwise (· ≤ ·) →
  ∃ c : ℝ, 0 < c ∧ ∀ t ∈ ts, t ∈ ts' → bias.weightAt ts' t = c * bias.weightAt ts t

theorem uniform_sameRatios : (uniformBias : Bias ℝ Unit).SameRatios := by
  have hone : ∀ (ts : List Int), ∀ t ∈ ts, (uniformBias : Bias ℝ Unit).weightAt ts t = 1 := by
    intro ts t ht
    exact Bias.getD_fullWeights_ofEdgeWeight (List.idxOf_lt_length_of_mem ht) 0
  refine fun ts ts' _ _ => ⟨1, one_pos, fun t ht ht' => ?_⟩
  rw [hone ts t ht, hone ts' t ht', mul_one]

theorem weightAt_exponential (self : ExponentialBias ℝ) {ts : List Int} (hsorted : ts.Pairwise (· ≤ ·)) {t : Int}
    (ht : t ∈ ts) : (self.toBias Real.exp).weightAt ts t =
      Real.exp (softmaxScale self.timescaleBound ts * ((t : ℝ) - ts.getD (ts.length - 1) 0)) := by
  have hidx := List.idxOf_lt_length_of_mem ht
  rw [Bias.weightAt, getD_fullWeights hsorted hidx, List.getD_eq_getElem _ _ hidx, List.getElem_idxOf]

theorem exponential_sameRatios {self : ExponentialBias ℝ} (hscale : self.timescaleBound ≤ 0) :
    (self.toBias Real.exp).SameRatios := by
  have hone : ∀ ts, softmaxScale self.timescaleBound ts = 1 := fun ts => if_neg fun h => absurd h.1 (not_lt.mpr hscale)
  intro ts ts' hsorted hsorted'
  refine ⟨Real.exp (ts.getD (ts.length - 1) 0 - ts'.getD (ts'.length - 1) 0), Real.exp_pos _, fun t ht ht' => ?_⟩
  rw [weightAt_exponential self hsorted ht, weightAt_exponential self hsorted' ht', hone, hone, ← Real.exp_add]
  congr 1
  ring

/-- With a time scale a later edge stretches the span, and with it all ratios. -/
theorem exponential_sameRatios_iff {self : ExponentialBias ℝ} :
    (self.toBias Real.exp).SameRatios ↔ self.timescaleBound ≤ 0 := by
  refine ⟨fun h => ?_, exponential_sameRatios⟩
  by_contra hpos
  push Not at hpos
  obtain ⟨c, -, hc⟩ := h [0, 1] [0, 1, 2] (by decide) (by decide)
  have hscale : softmaxScale self.timescaleBound [0, 1] = self.timescaleBound := by simp [softmaxScale, hpos]
  have hscale' : softmaxScale self.timescaleBound [0, 1, 2] = self.timescaleBound / 2 := by simp [softmaxScale, hpos]
  have hfirst := hc 0 (by decide) (by decide)
  have hsecond := hc 1 (by decide) (by decide)
  rw [weightAt_exponential self (by decide) (by decide), weightAt_exponential self (by decide) (by decide), hscale,
    hscale'] at hfirst hsecond
  simp only [List.length_cons, List.length_nil, List.getD_cons_succ, List.getD_cons_zero, Int.cast_zero, Int.cast_one,
    Int.cast_ofNat, sub_self, mul_zero, Real.exp_zero, mul_one, zero_sub, zero_add, Nat.add_one_sub_one] at hfirst hsecond
  -- the ratio at time zero is one, that at time one is not
  have hone : c = 1 := by
    have hexp : Real.exp (self.timescaleBound / 2 * -2) = Real.exp (self.timescaleBound * -1) := by
      congr 1
      ring
    rw [hexp] at hfirst
    exact (mul_right_cancel₀ (Real.exp_pos _).ne' ((one_mul _).trans hfirst)).symm
  rw [hone, Real.exp_eq_one_iff] at hsecond
  linarith

theorem stepBy_scale {es : List Entry} {g g' : Entry → ℝ} {c : ℝ} (hc : 0 < c) (h : ∀ e ∈ es, g' e = c * g e) :
    stepBy es g' = stepBy es g := by
  have hfactor : ENNReal.ofReal c ≠ 0 := (ENNReal.ofReal_pos.mpr hc).ne'
  rw [stepBy_congr h]
  unfold stepBy stepAlong
  simp only [ENNReal.ofReal_mul hc.le]
  exact pick_scale _ (fun i => ENNReal.ofReal_ne_top) _ hfactor ENNReal.ofReal_ne_top

/-! ### Inputs that agree before a time -/

/-- The edges before `t`. -/
def before (edges : List Edge) (t : Int) : List Edge := edges.filter (·.t < t)

theorem inbound_before (edges : List Edge) (isDirected : Bool) (v : Nat) (t : Int) :
    inbound (before edges t) isDirected v = (inbound edges isDirected v).filter (·.1 < t) := by
  have hside : ∀ (p : Edge → Bool) (f : Edge → Entry), (∀ e, (f e).1 = e.t) →
      ((before edges t).filter p).map f = ((edges.filter p).map f).filter (·.1 < t) := by
    intro p f hf
    rw [List.filter_map, before, List.filter_filter, List.filter_filter]
    congr 1
    apply List.filter_congr
    intro e _
    rw [Function.comp_apply, hf, Bool.and_comm]
  unfold inbound
  rw [List.filter_append, hside _ _ fun _ => rfl]
  congr 1
  split_ifs
  · rfl
  · exact hside _ _ fun _ => rfl

section agree

variable {edges edges' : List Edge} {t : Int} (hsame : (before edges' t).Perm (before edges t)) (isDirected : Bool)

include hsame

theorem inputCandidates_before {w : Walker} (hw : w.tPrev ≤ t) :
    (inputCandidates edges' isDirected w).Perm (inputCandidates edges isDirected w) := by
  have hbefore : ∀ edges : List Edge, inputCandidates edges isDirected w =
      inputCandidates (before edges t) isDirected w := by
    intro edges
    unfold inputCandidates
    rw [inbound_before, List.filter_filter]
    apply List.filter_congr
    intro e _
    rw [← Bool.decide_and, decide_eq_decide]
    exact ⟨fun h => ⟨h, h.trans_le hw⟩, fun h => h.1⟩
  rw [hbefore edges', hbefore edges]
  exact inputCandidates_perm hsame isDirected w

theorem factorLaw_causal {bias : Bias ℝ P} (hratios : bias.SameRatios) (b : Int → Int → ℝ) {w : Walker}
    (hw : w.tPrev ≤ t) : factorLaw edges' isDirected bias b w = factorLaw edges isDirected bias b w := by
  have hperm := inputCandidates_before hsame isDirected hw
  have hsorted : ∀ edges : List Edge, (inputTimes edges isDirected w.u.toNat).Pairwise (· ≤ ·) := fun edges =>
    List.pairwise_mergeSort' (r := (· ≤ ·)) _
  have hmem : ∀ edges : List Edge, ∀ e ∈ inputCandidates edges isDirected w,
      e.1 ∈ inputTimes edges isDirected w.u.toNat := by
    intro edges e he
    exact (List.mergeSort_perm _ _).mem_iff.mpr (List.mem_map.mpr ⟨e, (List.mem_filter.mp he).1, rfl⟩)
  obtain ⟨c, hc, hweights⟩ := hratios _ _ (hsorted edges) (hsorted edges')
  rw [factorLaw, stepBy_perm hperm]
  apply stepBy_scale hc
  intro e he
  rw [hweights e.1 (hmem edges e he) (hmem edges' e (hperm.mem_iff.mpr he)), mul_assoc]

theorem factorWalkLaw_causal {bias : Bias ℝ P} (hratios : bias.SameRatios) (b : Int → Int → ℝ) (n : Nat) {w : Walker}
    (hw : w.tPrev ≤ t) :
    factorWalkLaw edges' isDirected bias b n w = factorWalkLaw edges isDirected bias b n w := by
  have hstep : ∀ w : Walker, w.tPrev ≤ t → (factorLaw edges' isDirected bias b w).map slotOf =
      (factorLaw edges isDirected bias b w).map slotOf :=
    fun w hw => congrArg (PMF.map slotOf) (factorLaw_causal hsame isDirected hratios b hw)
  have hmove : ∀ (w : Walker) a, w.tPrev ≤ t → (factorLaw edges isDirected bias b w).map slotOf (some a) ≠ 0 →
      (w.move a).tPrev ≤ t := by
    intro w a hw ha
    obtain ⟨e, he, rfl⟩ := mem_of_slot ha
    exact (of_decide_eq_true (List.mem_filter.mp he).2).le.trans hw
  exact Paths.law_congr hstep hmove n w hw

end agree

/-- **What comes later changes nothing**: from time `t` on a walk has the law of every input that agrees with the stored
one before `t`. -/
theorem walks_causal (S : StdSort) (self : TemporalGraph) {edges edges' : List Edge} {numVertices : Int}
    {isDirected : Bool} (σ : Schedule edges' isDirected) (hin : EndpointsIn edges' (vertexCount edges' numVertices))
    {w : Walker} (hsame : (before edges' w.tPrev).Perm (before edges w.tPrev))
    (hu : 0 ≤ w.u ∧ w.u < vertexCount edges' numVertices) (n : Nat) (scratch : SamplerScratch ℝ) :
    let graph := TemporalGraph.build S self edges' numVertices isDirected σ
    (∀ bias : Bias ℝ P, (∀ ts, bias.ExactOnSlices ts) → bias.ByTime → bias.SameRatios →
      ∀ sample, BuiltSampler graph bias sample →
        (Prod.fst <$> hops sample n w.u w.tPrev w.prevU scratch).HasLaw (inputWalkLaw edges isDirected bias n w)) ∧
    ∀ self : Node2VecBias ℝ, 0 < self.p → 0 < self.q → self.timescaleBound ≤ 0 →
      (w.prevU < 0 ∨ 0 ≤ w.prevU ∧ w.prevU < vertexCount edges' numVertices) →
      (∀ x y, Adjacent edges' x y ↔ Adjacent edges x y) → ∀ (sets : NeighborSets) (ρ : OutSchedule graph), ∀ sample,
        BuiltNode2vec graph Real.exp self (sets.build graph isDirected ρ) sample →
          (Prod.fst <$> hops sample n w.u w.tPrev w.prevU scratch).LawWithin
            (n * ENNReal.ofReal ((1 - self.minRatio) ^ 1024)) (inputNode2vecWalkLaw edges isDirected Real.exp self n w) := by
  intro graph
  obtain ⟨hg, hn, hstores⟩ : graph.WellFormed ∧ graph.numVertices = vertexCount edges' numVertices ∧
      StoresInput graph edges' graph.numVertices isDirected := build_walkable S self σ hin
  have hw : w.InGraph graph := Walker.inGraph_of_lt hn hu
  constructor
  · intro bias hexact htime hratios sample hsample
    rw [inputWalkLaw_eq_factor, ← factorWalkLaw_causal hsame isDirected hratios _ n le_rfl, ← inputWalkLaw_eq_factor]
    exact hsample.hops_input hg hstores hexact htime n hw scratch
  · intro self hp hq hscale hprev hadj sets ρ sample hsample
    have hratios : (self.toBias Real.exp).SameRatios := exponential_sameRatios hscale
    have hknown : w.Known graph := by
      rw [← hn] at hprev
      exact ⟨hw, hprev⟩
    rw [inputNode2vecWalkLaw_eq_factor, ← inputBeta_congr hadj,
      ← factorWalkLaw_causal hsame isDirected hratios _ n le_rfl, ← inputNode2vecWalkLaw_eq_factor]
    exact hsample.hops_within hg hstores (hn ▸ hin) (fun x => (Real.exp_pos x).le) Real.exp_zero hp hq n hknown scratch

/-- An edge at time 9 changes nothing for a walker at time 5. -/
theorem walks_causal_example :
    let edges : List Edge := [⟨2, 1, 4⟩, ⟨1, 0, 3⟩]
    let edges' : List Edge := [⟨2, 1, 4⟩, ⟨1, 0, 3⟩, ⟨0, 1, 9⟩]
    let graph := TemporalGraph.build StdSort.stable {} edges' 3 true (Schedule.serial edges' true)
    let self : Node2VecBias ℝ := { p := 1 / 2, q := 2 }
    (Prod.fst <$> hops (patSampler graph (Pat.build {} graph uniformBias kPatTrunkSizeMin (ForSchedule.serial _))
      uniformBias) 78 1 5 2 {}).HasLaw (inputWalkLaw edges true (uniformBias : Bias ℝ Unit) 78 ⟨1, 5, 2⟩) ∧
    (Prod.fst <$> hops (patNode2vecSampler Real.exp graph (Pat.build {} graph (self.toBias Real.exp) kPatTrunkSizeMin
      (ForSchedule.serial _)) self (NeighborSets.build {} graph true (OutSchedule.serial graph))) 78 1 5 2 {}).LawWithin
        ((78 : Nat) * ENNReal.ofReal ((1 - self.minRatio) ^ 1024))
        (inputNode2vecWalkLaw edges true Real.exp self 78 ⟨1, 5, 2⟩) := by
  intro edges edges' graph self
  have hsame : (before edges' 5).Perm (before edges 5) := by decide
  have hadj : ∀ x y, Adjacent edges' x y ↔ Adjacent edges x y := by
    intro x y
    simp only [Adjacent, edges, edges', List.mem_cons, List.not_mem_nil, or_false, exists_eq_or_imp, exists_eq_left]
    tauto
  have hscale : self.timescaleBound ≤ 0 := by
    show ((-1 : Int) : ℝ) ≤ 0
    norm_num
  obtain ⟨hplain, hnode2vec⟩ := walks_causal StdSort.stable {} (Schedule.serial edges' true)
    (show EndpointsIn edges' (vertexCount edges' 3) by unfold EndpointsIn; decide) (w := ⟨1, 5, 2⟩) hsame (by decide) 78 {}
  exact ⟨hplain uniformBias uniformBias_exact uniformBias_byTime uniform_sameRatios _
      (.pat {} kPatTrunkSizeMin (ForSchedule.serial _)),
    hnode2vec self (by norm_num [self]) (by norm_num [self]) hscale (by decide) hadj {} (OutSchedule.serial graph) _
      (.pat {} kPatTrunkSizeMin (ForSchedule.serial _))⟩

end Tea
