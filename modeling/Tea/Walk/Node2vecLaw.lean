import Tea.Lib.Reweigh
import Tea.Sampling.Neighborhood
import Tea.Sampling.RejectionLaw
import Tea.Walk.InputLaw
/-!
# The law of node2vec walks

The ideal node2vec walk (`inputNode2vecWalkLaw`) weights an earlier entry of the walker's vertex by its exponential weight
times the node2vec factor, which compares its target with the previous vertex in the edge list. The walks come from
rejection with a cap on the retries. One step is off by at most `ρ ^ 1024`, where `ρ` is one less the smallest acceptance
ratio (`node2vecLaw_within`), and the errors of the steps after the first add up along a walk. For `p = q = 1` every
proposal is accepted, and the walks are those of the exponential bias.
-/

namespace Tea

open Arith Laws
open scoped ENNReal

variable {P : Type}

/-! ### The acceptance -/

namespace Node2VecBias

variable {self : Node2VecBias ℝ}

/-- The acceptance of a proposed step. -/
noncomputable def accept (self : Node2VecBias ℝ) (prevU : Int) (neighbors : NeighborSets) (s : SampledStep) : ℝ≥0∞ :=
  ENNReal.ofReal (self.acceptRatio prevU s.v neighbors)

/-- The smallest acceptance ratio: the smallest node2vec factor over the largest. -/
noncomputable def minRatio (self : Node2VecBias ℝ) : ℝ :=
  min (min (1 / self.p) 1) (1 / self.q) / max (max (1 / self.p) 1) (1 / self.q)

theorem accept_le_one (self : Node2VecBias ℝ) (prevU : Int) (neighbors : NeighborSets) (s : SampledStep) :
    self.accept prevU neighbors s ≤ 1 := by
  rw [accept, ← ENNReal.ofReal_one]
  exact ENNReal.ofReal_le_ofReal (acceptRatio_le_one prevU s.v neighbors)

theorem accept_ne_zero (hp : 0 < self.p) (hq : 0 < self.q) (prevU : Int) (neighbors : NeighborSets) (s : SampledStep) :
    self.accept prevU neighbors s ≠ 0 :=
  (ENNReal.ofReal_pos.mpr (acceptRatio_pos hp hq prevU s.v neighbors)).ne'

theorem minRatio_pos (hp : 0 < self.p) (hq : 0 < self.q) : 0 < self.minRatio := by
  have hmax : 0 < max (max (1 / self.p) 1) (1 / self.q) := zero_lt_one.trans_le one_le_betaMax
  exact div_pos (lt_min (lt_min (one_div_pos.mpr hp) zero_lt_one) (one_div_pos.mpr hq)) hmax

theorem minRatio_le_acceptRatio (self : Node2VecBias ℝ) (prevU : Int) (neighbors : NeighborSets) (v : Int) :
    self.minRatio ≤ self.acceptRatio prevU v neighbors := by
  have hmax : 0 < max (max (1 / self.p) 1) (1 / self.q) := zero_lt_one.trans_le one_le_betaMax
  rw [minRatio, acceptRatio_eq]
  apply div_le_div_of_nonneg_right _ hmax.le
  unfold beta
  split_ifs
  · exact (min_le_left _ _).trans (min_le_left _ _)
  · exact (min_le_left _ _).trans (min_le_right _ _)
  · exact min_le_right _ _

theorem minRatio_le_accept (self : Node2VecBias ℝ) (prevU : Int) (neighbors : NeighborSets) (s : SampledStep) :
    ENNReal.ofReal self.minRatio ≤ self.accept prevU neighbors s :=
  ENNReal.ofReal_le_ofReal (self.minRatio_le_acceptRatio prevU neighbors s.v)

theorem minRatio_le_one (self : Node2VecBias ℝ) : self.minRatio ≤ 1 := by
  have hmax : 0 < max (max (1 / self.p) 1) (1 / self.q) := zero_lt_one.trans_le one_le_betaMax
  apply div_le_one_of_le₀ _ hmax.le
  exact ((min_le_left _ _).trans (min_le_right _ _)).trans one_le_betaMax

end Node2VecBias

/-! ### One step -/

section step

variable {self : Node2VecBias ℝ} {neighbors : NeighborSets} {propose : StepFn ℝ} {u tPrev prevU : Int}
  {π : PMF SampledStep}

theorem fst_map_pair (d : Draw ℝ SampledStep) (scratch : SamplerScratch ℝ) :
    Prod.fst <$> (fun s => (s, scratch)) <$> d = d := by
  rw [← comp_map]
  exact id_map d

theorem retriesOf_eq_fst (d : Draw ℝ SampledStep) (accept : Int → ℝ) (prevU : Int) (retries : Nat)
    (lastStep : SampledStep) : retriesOf d accept prevU retries lastStep =
      Prod.fst <$> rejectionRetries (fun scratch => (fun s => (s, scratch)) <$> d) accept prevU retries lastStep {} := by
  exact (fst_rejectionRetries (fst_map_pair d) accept prevU retries lastStep {}).symm

theorem node2vecStep_first (hfirst : prevU < 0) : node2vecStep propose self neighbors u tPrev prevU =
    propose u tPrev prevU := by
  rw [node2vecStep, retriesOf_eq_fst, show kNode2VecMaxRetries = 1023 + 1 from rfl, rejectionRetries_first hfirst,
    fst_map_pair]

theorem node2vecStep_dead (h : (propose u tPrev prevU).HasLaw (PMF.pure SampledStep.dead)) :
    (node2vecStep propose self neighbors u tPrev prevU).HasLaw (PMF.pure SampledStep.dead) := by
  intro f
  show (retriesOf _ _ prevU (1023 + 1) _).expect f = mean (PMF.pure SampledStep.dead) f
  rw [retriesOf, Draw.expect_bind, h]
  show mean (PMF.pure SampledStep.dead) _ = _
  rw [mean_pure, mean_pure, if_pos (show SampledStep.dead.v = kWalkDeadSentinel from rfl), Draw.expect_pure]

theorem node2vecStep_live (hprev : 0 ≤ prevU) (hp : 0 < self.p) (hq : 0 < self.q)
    (h : (propose u tPrev prevU).HasLaw π) (hlive : ∀ x, π x ≠ 0 → x.v ≠ kWalkDeadSentinel) :
    (node2vecStep propose self neighbors u tPrev prevU).HasLaw
      (rejection π (self.accept prevU neighbors) (self.accept_le_one prevU neighbors) 1023) := by
  have hpropose : ∀ scratch : SamplerScratch ℝ,
      (Prod.fst <$> (fun s => (s, scratch)) <$> propose u tPrev prevU).HasLaw π := by
    intro scratch
    rw [fst_map_pair]
    exact h
  have hloop := rejectionRetries_hasLaw hpropose hlive hprev
    (fun v => (Node2VecBias.acceptRatio_pos hp hq prevU v neighbors).le)
    (fun v => Node2VecBias.acceptRatio_le_one prevU v neighbors) 1023 .dead {}
  rw [node2vecStep, retriesOf_eq_fst]
  exact hloop

end step

/-- The law of a step with weights that have a sum is reweighed by the factors of the entries. -/
theorem reweigh_stepAlong (es : List Entry) {w : Nat → ℝ} (hw : ∀ i, 0 ≤ w i)
    (hsum : ∑ i ∈ Finset.range es.length, w i ≠ 0) {m : ℝ} (hm : 0 < m) {b : Int → ℝ}
    {a : SampledStep → ℝ≥0∞} (ha : ∀ s, a s = ENNReal.ofReal (b s.v / m)) (hpos : ∀ s, a s ≠ 0) (hle : ∀ s, a s ≤ 1) :
    reweigh (stepAlong es w) a hpos hle = stepAlong es fun i => w i * b (es.getD i (0, 0)).2 := by
  have htotal : ∑ i ∈ Finset.range (es.map stepTo).length, ENNReal.ofReal (w i) ≠ 0 := by
    rw [List.length_map, ← ENNReal.ofReal_sum_of_nonneg fun i _ => hw i]
    exact (ENNReal.ofReal_pos.mpr ((Finset.sum_nonneg fun i _ => hw i).lt_of_ne' hsum)).ne'
  have hfactor : ENNReal.ofReal m⁻¹ ≠ 0 := (ENNReal.ofReal_pos.mpr (inv_pos.mpr hm)).ne'
  rw [stepAlong, reweigh_pick _ (fun i => ENNReal.ofReal_ne_top) _ htotal, stepAlong,
    ← pick_scale _ (fun i => ENNReal.ofReal_ne_top) _ hfactor ENNReal.ofReal_ne_top]
  apply pick_congr
  · intro i
    exact ENNReal.mul_ne_top ENNReal.ofReal_ne_top ((hle _).trans_lt ENNReal.one_lt_top).ne
  · intro i
    exact ENNReal.mul_ne_top ENNReal.ofReal_ne_top ENNReal.ofReal_ne_top
  intro i hi
  have hi' : i < es.length := by rwa [List.length_map] at hi
  rw [List.getD_eq_getElem _ _ hi, List.getElem_map, List.getD_eq_getElem _ _ hi', ha,
    ← ENNReal.ofReal_mul (hw i), ← ENNReal.ofReal_mul (inv_pos.mpr hm).le]
  congr 1
  show w i * (b es[i].2 / m) = m⁻¹ * (w i * b es[i].2)
  rw [div_eq_inv_mul, mul_left_comm]

/-! ### The ideal walk -/

open Classical in
/-- The node2vec factor of a step to `v` of a walker that came from `prevU`, on the input. A first step has none. -/
noncomputable def inputBeta (edges : List Edge) (self : Node2VecBias ℝ) (prevU v : Int) : ℝ :=
  if prevU < 0 then 1 else if v = prevU then 1 / self.p else if Adjacent edges prevU v then 1 else 1 / self.q

/-- The law of the next step of the ideal node2vec walker. -/
noncomputable def inputNode2vecLaw (edges : List Edge) (isDirected : Bool) (exp : ℝ → ℝ) (self : Node2VecBias ℝ)
    (w : Walker) : PMF SampledStep :=
  stepBy (inputCandidates edges isDirected w) fun e =>
    (self.toBias exp).weightAt (inputTimes edges isDirected w.u.toNat) e.1 * inputBeta edges self w.prevU e.2

/-- The law of the ideal node2vec walk of at most `n` hops. -/
noncomputable def inputNode2vecWalkLaw (edges : List Edge) (isDirected : Bool) (exp : ℝ → ℝ) (self : Node2VecBias ℝ)
    (n : Nat) (w : Walker) : PMF (List NodeStep) :=
  Paths.law (fun w => (inputNode2vecLaw edges isDirected exp self w).map slotOf) Walker.move n w

/-- The previous vertex is one of the graph, or there is none. -/
def Walker.Known (graph : TemporalGraph) (w : Walker) : Prop :=
  w.InGraph graph ∧ (w.prevU < 0 ∨ 0 ≤ w.prevU ∧ w.prevU < graph.numVertices)

/-- The weight of the walker's candidates. -/
noncomputable def candidateWeight (graph : TemporalGraph) (exp : ℝ → ℝ) (self : Node2VecBias ℝ) (w : Walker) : ℝ :=
  ∑ i ∈ Finset.range (graph.candidates w.u.toNat w.tPrev).length,
    ((self.toBias exp).fullWeights (graph.timestampsOf w.u.toNat)).getD i 0

/-- The law of the next step of the rejection loop. -/
noncomputable def node2vecLaw (graph : TemporalGraph) (neighbors : NeighborSets) (exp : ℝ → ℝ) (self : Node2VecBias ℝ)
    (w : Walker) : PMF SampledStep :=
  if w.prevU < 0 ∨ candidateWeight graph exp self w = 0 then stepLaw graph (self.toBias exp) w
  else rejection (stepLaw graph (self.toBias exp) w) (self.accept w.prevU neighbors)
    (self.accept_le_one w.prevU neighbors) 1023

section walk

variable {graph : TemporalGraph} (hg : graph.WellFormed) {edges : List Edge} {isDirected : Bool}
  (hstores : StoresInput graph edges graph.numVertices isDirected) {neighbors : NeighborSets}
  (hneighbors : NeighborSets.IsNeighborhood neighbors edges graph.numVertices) {exp : ℝ → ℝ}
  (hexp : ∀ x, 0 ≤ exp x) (hzero : exp 0 = 1) {self : Node2VecBias ℝ} (hp : 0 < self.p) (hq : 0 < self.q)

theorem stepAlong_dead (es : List Entry) {w : Nat → ℝ} (hw : ∀ i, 0 ≤ w i)
    (hsum : ∑ i ∈ Finset.range es.length, w i = 0) : stepAlong es w = PMF.pure .dead := by
  apply ext_mean
  intro f _
  rw [mean_stepAlong es hw, if_pos hsum, mean_pure]

theorem mem_of_stepAlong {es : List Entry} {w : Nat → ℝ} (hw : ∀ i, 0 ≤ w i)
    (hsum : ∑ i ∈ Finset.range es.length, w i ≠ 0) {x : SampledStep} (hx : stepAlong es w x ≠ 0) :
    ∃ e ∈ es, stepTo e = x := by
  classical
  by_contra hnone
  push Not at hnone
  apply hx
  rw [← mean_single, mean_stepAlong es hw, if_neg hsum]
  apply Finset.sum_eq_zero
  intro i hi
  have hi : i < es.length := Finset.mem_range.mp hi
  rw [List.getD_eq_getElem _ _ hi, if_neg (hnone _ (List.getElem_mem hi)), mul_zero]

include hneighbors in
theorem beta_eq_input {prevU v : Int} (hprev : 0 ≤ prevU) (hprev' : prevU < graph.numVertices)
    (hv : 0 ≤ v ∧ v < graph.numVertices) : self.beta prevU v neighbors = inputBeta edges self prevU v := by
  have hcontains : neighbors.contains prevU v = true ↔ Adjacent edges prevU v := by
    have h := hneighbors.contains_iff prevU.toNat v.toNat (by omega) (by omega)
    rwa [Int.toNat_of_nonneg hprev, Int.toNat_of_nonneg hv.1] at h
  unfold Node2VecBias.beta inputBeta
  rw [if_neg (not_lt.mpr hprev)]
  by_cases hadj : Adjacent edges prevU v
  · rw [if_pos (hcontains.mpr hadj), if_pos hadj]
  · rw [if_neg (mt hcontains.mp hadj), if_neg hadj]

include hexp hzero in
theorem toBias_weights_nonneg (self : Node2VecBias ℝ) (ts : List Int) (i : Nat) :
    0 ≤ ((self.toBias exp).fullWeights ts).getD i 0 :=
  weights_nonneg (fun ts => ExponentialBias.toBias_exact hexp hzero _ ts) ts i

include hg hexp hzero hp hq

theorem node2vecStep_hasLaw {propose : StepFn ℝ} {w : Walker} (hw : w.InGraph graph)
    (hpropose : (propose w.u w.tPrev w.prevU).HasLaw (stepLaw graph (self.toBias exp) w)) :
    (node2vecStep propose self neighbors w.u w.tPrev w.prevU).HasLaw
      (node2vecLaw graph neighbors exp self w) := by
  have hweights := toBias_weights_nonneg hexp hzero self (graph.timestampsOf w.u.toNat)
  unfold node2vecLaw
  split_ifs with hcase
  · by_cases hfirst : w.prevU < 0
    · rwa [node2vecStep_first hfirst]
    · have hdead : stepLaw graph (self.toBias exp) w = PMF.pure .dead :=
        stepAlong_dead _ hweights (hcase.resolve_left hfirst)
      rw [hdead] at hpropose ⊢
      exact node2vecStep_dead hpropose
  · push Not at hcase
    apply node2vecStep_live hcase.1 hp hq hpropose
    intro x hx
    obtain ⟨e, he, rfl⟩ := mem_of_stepAlong hweights hcase.2 hx
    exact candidates_live hg hw he

include hstores hneighbors

/-- **A node2vec step is within `ρ ^ 1024` of the ideal one.** -/
theorem node2vecLaw_within {w : Walker} (hw : w.Known graph) :
    Within (ENNReal.ofReal ((1 - self.minRatio) ^ 1024)) (node2vecLaw graph neighbors exp self w)
      (inputNode2vecLaw edges isDirected exp self w) := by
  have htime : (self.toBias exp).ByTime := ExponentialBias.toBias_byTime exp _
  have hweights := toBias_weights_nonneg hexp hzero self (graph.timestampsOf w.u.toNat)
  have hone : ∀ v, w.prevU < 0 → inputBeta edges self w.prevU v = 1 := fun v h => if_pos h
  unfold node2vecLaw
  split_ifs with hcase
  · suffices heq : stepLaw graph (self.toBias exp) w = inputNode2vecLaw edges isDirected exp self w by
      rw [heq]
      exact (Within.refl _).mono zero_le
    by_cases hfirst : w.prevU < 0
    · rw [stepLaw_eq_input hg hstores htime hw.1, inputStepLaw, inputNode2vecLaw]
      apply stepBy_congr
      intro e _
      rw [hone _ hfirst, mul_one]
    · -- without weight the factors change nothing
      have hnone := hcase.resolve_left hfirst
      have hall : ∀ i ∈ Finset.range (graph.candidates w.u.toNat w.tPrev).length,
          ((self.toBias exp).fullWeights (graph.timestampsOf w.u.toNat)).getD i 0 = 0 :=
        (Finset.sum_eq_zero_iff_of_nonneg fun i _ => hweights i).mp hnone
      rw [inputNode2vecLaw, ← stepAlong_eq_stepBy hg hstores htime hw.1]
      apply stepAlong_congr
      intro i hi
      rw [hall i (Finset.mem_range.mpr hi), zero_mul]
  · push Not at hcase
    have hsame : (stepAlong (graph.candidates w.u.toNat w.tPrev) fun i =>
        ((self.toBias exp).fullWeights (graph.timestampsOf w.u.toNat)).getD i 0 *
          self.beta w.prevU ((graph.candidates w.u.toNat w.tPrev).getD i (0, 0)).2 neighbors) =
        inputNode2vecLaw edges isDirected exp self w := by
      rw [inputNode2vecLaw, ← stepAlong_eq_stepBy hg hstores htime hw.1]
      apply stepAlong_congr
      intro i hi
      rw [List.getD_eq_getElem _ (0, 0) hi]
      exact congrArg _ (beta_eq_input hneighbors hcase.1 (hw.2.resolve_left (not_lt.mpr hcase.1)).2
        (candidates_target hg hw.1 (List.getElem_mem hi)))
    have hreweigh : reweigh (stepLaw graph (self.toBias exp) w) (self.accept w.prevU neighbors)
        (Node2VecBias.accept_ne_zero hp hq w.prevU neighbors) (self.accept_le_one w.prevU neighbors) =
        inputNode2vecLaw edges isDirected exp self w := by
      rw [← hsame]
      have hmax : 0 < max (max (1 / self.p) 1) (1 / self.q) := zero_lt_one.trans_le Node2VecBias.one_le_betaMax
      apply reweigh_stepAlong (b := fun v => self.beta w.prevU v neighbors) _ hweights hcase.2 hmax
      intro s
      rw [Node2VecBias.accept, Node2VecBias.acceptRatio_eq]
    rw [← hreweigh]
    refine (within_rejection _ _ _ 1023).mono ?_
    rw [ENNReal.ofReal_pow (sub_nonneg.mpr self.minRatio_le_one), ENNReal.ofReal_sub _ (Node2VecBias.minRatio_pos hp hq).le,
      ENNReal.ofReal_one]
    exact pow_le_pow_left' (rejected_le _ fun s => self.minRatio_le_accept w.prevU neighbors s) 1024

omit hp hq hg hexp hzero hstores hneighbors in
theorem node2vecLaw_proposed {w : Walker} {s : SampledStep} (hs : node2vecLaw graph neighbors exp self w s ≠ 0) :
    stepLaw graph (self.toBias exp) w s ≠ 0 := by
  unfold node2vecLaw at hs
  split_ifs at hs with hcase
  · exact hs
  · exact rejection_proposed _ _ hs

end walk

/-! ### Walks -/

/-- The law of the node2vec walk of at most `n` hops. -/
noncomputable def node2vecWalkLaw (graph : TemporalGraph) (neighbors : NeighborSets) (exp : ℝ → ℝ)
    (self : Node2VecBias ℝ) (n : Nat) (w : Walker) : PMF (List NodeStep) :=
  Paths.law (fun w => (node2vecLaw graph neighbors exp self w).map slotOf) Walker.move n w

theorem mem_of_slot {es : List Entry} {w : Nat → ℝ} {a : NodeStep} (ha : (stepAlong es w).map slotOf (some a) ≠ 0) :
    ∃ e ∈ es, slotTo e = a := by
  obtain ⟨s, hs, hslot⟩ := (PMF.mem_support_map_iff slotOf _ (some a)).mp ((PMF.mem_support_iff _ _).mpr ha)
  unfold slotOf at hslot
  split_ifs at hslot with hdead
  rcases mem_of_pick (fun i => ENNReal.ofReal_ne_top) ((PMF.mem_support_iff _ _).mp hs) with hmem | rfl
  · obtain ⟨e, he, rfl⟩ := List.mem_map.mp hmem
    exact ⟨e, he, Option.some.inj hslot⟩
  · exact absurd rfl hdead

section walks

variable {graph : TemporalGraph} (hg : graph.WellFormed) {edges : List Edge} {isDirected : Bool}
  (hstores : StoresInput graph edges graph.numVertices isDirected) {neighbors : NeighborSets}
  (hneighbors : NeighborSets.IsNeighborhood neighbors edges graph.numVertices) {exp : ℝ → ℝ}
  (hexp : ∀ x, 0 ≤ exp x) (hzero : exp 0 = 1) {self : Node2VecBias ℝ} (hp : 0 < self.p) (hq : 0 < self.q)

include hg

theorem stepAlong_known {w : Walker} (hw : w.InGraph graph) {weight : Nat → ℝ} {a : NodeStep}
    (ha : (stepAlong (graph.candidates w.u.toNat w.tPrev) weight).map slotOf (some a) ≠ 0) : (w.move a).Known graph := by
  obtain ⟨e, he, rfl⟩ := mem_of_slot ha
  exact ⟨candidates_target hg hw he, .inr hw⟩

theorem node2vecLaw_known {w : Walker} (hw : w.InGraph graph) {a : NodeStep}
    (ha : (node2vecLaw graph neighbors exp self w).map slotOf (some a) ≠ 0) : (w.move a).InGraph graph := by
  obtain ⟨s, hs, hslot⟩ := (PMF.mem_support_map_iff slotOf _ (some a)).mp ((PMF.mem_support_iff _ _).mpr ha)
  have hproposed : (stepLaw graph (self.toBias exp) w).map slotOf (some a) ≠ 0 := by
    rw [← PMF.mem_support_iff, PMF.mem_support_map_iff]
    exact ⟨s, (PMF.mem_support_iff _ _).mpr (node2vecLaw_proposed ((PMF.mem_support_iff _ _).mp hs)), hslot⟩
  exact (stepAlong_known hg hw hproposed).1

include hexp hzero hp hq

theorem hopsOf_node2vec_hasLaw {propose : StepFn ℝ} (hpropose : ∀ w : Walker, w.InGraph graph →
      (propose w.u w.tPrev w.prevU).HasLaw (stepLaw graph (self.toBias exp) w)) (n : Nat) {w : Walker}
    (hw : w.InGraph graph) : (hopsOf (node2vecStep propose self neighbors) n w.u w.tPrev w.prevU).HasLaw
      (node2vecWalkLaw graph neighbors exp self n w) := by
  rw [hopsOf_eq_program]
  apply Paths.program_hasLaw _ _ n w hw
  · intro w hw
    exact (node2vecStep_hasLaw hg hexp hzero hp hq hw (hpropose w hw)).map slotOf
  · exact fun w a hw ha => node2vecLaw_known hg hw ha

include hstores hneighbors

omit hneighbors hexp hzero hp hq in
theorem inputNode2vecLaw_known {w : Walker} (hw : w.Known graph) {a : NodeStep}
    (ha : (inputNode2vecLaw edges isDirected exp self w).map slotOf (some a) ≠ 0) : (w.move a).Known graph := by
  have htime : (self.toBias exp).ByTime := ExponentialBias.toBias_byTime exp _
  have hsame : inputNode2vecLaw edges isDirected exp self w = _ :=
    (stepAlong_eq_stepBy hg hstores htime hw.1 fun e => inputBeta edges self w.prevU e.2).symm
  apply stepAlong_known hg hw.1
  rwa [← hsame]

theorem node2vecWalkLaw_within_known (n : Nat) {w : Walker} (hw : w.Known graph) :
    Within (n * ENNReal.ofReal ((1 - self.minRatio) ^ 1024)) (node2vecWalkLaw graph neighbors exp self n w)
      (inputNode2vecWalkLaw edges isDirected exp self n w) := by
  have hmove : ∀ (w : Walker) a, w.Known graph → (inputNode2vecLaw edges isDirected exp self w).map slotOf (some a) ≠ 0 →
      (w.move a).Known graph := fun w a hw ha => inputNode2vecLaw_known hg hstores hw ha
  exact Paths.within_law (fun w hw => (node2vecLaw_within hg hstores hneighbors hexp hzero hp hq hw).map slotOf) hmove n
    w hw

theorem node2vecWalkLaw_within (n : Nat) {u : Int} (hu : (Walker.ofStart u).InGraph graph) :
    Within ((n - 1 : Nat) * ENNReal.ofReal ((1 - self.minRatio) ^ 1024))
      (node2vecWalkLaw graph neighbors exp self n (.ofStart u))
      (inputNode2vecWalkLaw edges isDirected exp self n (.ofStart u)) := by
  have hnone : (Walker.ofStart u).prevU < 0 := show (-1 : Int) < 0 by decide
  have hstart : (Walker.ofStart u).Known graph := ⟨hu, .inl hnone⟩
  have htime : (self.toBias exp).ByTime := ExponentialBias.toBias_byTime exp _
  cases n with
  | zero => exact (Within.refl _).mono zero_le
  | succ n =>
      have hfirst : node2vecLaw graph neighbors exp self (.ofStart u) =
          inputNode2vecLaw edges isDirected exp self (.ofStart u) := by
        rw [node2vecLaw, if_pos (.inl hnone), stepLaw_eq_input hg hstores htime hu, inputStepLaw, inputNode2vecLaw]
        apply stepBy_congr
        intro e _
        rw [inputBeta, if_pos hnone, mul_one]
      rw [Nat.add_sub_cancel, ← zero_add ((n : ℝ≥0∞) * _)]
      apply Paths.within_law_first
      · show Within 0 ((node2vecLaw graph neighbors exp self (.ofStart u)).map slotOf) _
        rw [hfirst]
        exact Within.refl _
      · intro a ha
        exact node2vecWalkLaw_within_known hg hstores hneighbors hexp hzero hp hq n
          (inputNode2vecLaw_known hg hstores hstart ha)

end walks

theorem inputNode2vecWalkLaw_plain (edges : List Edge) (isDirected : Bool) (exp : ℝ → ℝ) {self : Node2VecBias ℝ}
    (hp : self.p = 1) (hq : self.q = 1) (n : Nat) (w : Walker) :
    inputNode2vecWalkLaw edges isDirected exp self n w = inputWalkLaw edges isDirected (self.toBias exp) n w := by
  have hbeta : ∀ prevU v, inputBeta edges self prevU v = 1 := by
    intro prevU v
    unfold inputBeta
    rw [hp, hq, one_div_one]
    split_ifs <;> rfl
  have hstep : inputNode2vecLaw edges isDirected exp self = inputStepLaw edges isDirected (self.toBias exp) := by
    funext w
    unfold inputNode2vecLaw
    simp only [hbeta, mul_one]
    rfl
  rw [inputNode2vecWalkLaw, hstep]
  rfl

/-! ### The samplers on built tables -/

/-- The samplers of `run_walks_pat_node2vec` and `run_walks_hpat_node2vec`, on tables that the code has built. -/
inductive BuiltNode2vec (graph : TemporalGraph) (exp : ℝ → ℝ) (self : Node2VecBias ℝ) (neighbors : NeighborSets) :
    Sampler ℝ → Prop
  | pat (pat : Pat ℝ (ExpParams ℝ)) (minTrunkSize : Int) (τ : ForSchedule graph.numVertices) :
      BuiltNode2vec graph exp self neighbors
        (patNode2vecSampler exp graph (pat.build graph (self.toBias exp) minTrunkSize τ) self neighbors)
  | hpat {hpat : Hpat ℝ (ExpParams ℝ)} {auxBudgetBytes : Nat} (hrenews : hpat.Renews auxBudgetBytes)
      (τ τ' : ForSchedule graph.numVertices) :
      BuiltNode2vec graph exp self neighbors
        (hpatNode2vecSampler exp graph (hpat.build graph (self.toBias exp) auxBudgetBytes τ τ') self neighbors)

theorem BuiltNode2vec.returns {graph : TemporalGraph} {exp : ℝ → ℝ} {self : Node2VecBias ℝ} {neighbors : NeighborSets}
    {sample : Sampler ℝ} (h : BuiltNode2vec graph exp self neighbors sample) :
    ∃ plain propose, BuiltSampler graph (self.toBias exp) plain ∧ plain.Returns propose ∧
      sample.Returns (node2vecStep propose self neighbors) := by
  cases h with
  | pat pat minTrunkSize τ =>
      exact ⟨_, _, .pat pat minTrunkSize τ, patSampler_returns graph _ _, patNode2vecSampler_returns exp graph self _ _⟩
  | hpat hrenews τ τ' =>
      exact ⟨_, _, .hpat hrenews τ τ', hpatSampler_returns graph _ _,
        hpatNode2vecSampler_returns exp graph self _ _⟩

theorem BuiltNode2vec.hops_hasLaw {graph : TemporalGraph} (hg : graph.WellFormed) {exp : ℝ → ℝ} (hexp : ∀ x, 0 ≤ exp x)
    (hzero : exp 0 = 1) {self : Node2VecBias ℝ} (hp : 0 < self.p) (hq : 0 < self.q) {neighbors : NeighborSets}
    {sample : Sampler ℝ} (h : BuiltNode2vec graph exp self neighbors sample) (n : Nat) {w : Walker} (hw : w.InGraph graph)
    (scratch : SamplerScratch ℝ) : (Prod.fst <$> hops sample n w.u w.tPrev w.prevU scratch).HasLaw
      (node2vecWalkLaw graph neighbors exp self n w) := by
  have hexact : ∀ ts, (self.toBias exp).ExactOnSlices ts := fun ts => ExponentialBias.toBias_exact hexp hzero _ ts
  obtain ⟨plain, propose, hplain, hpropose, hreturns⟩ := h.returns
  rw [fst_hops hreturns]
  exact hopsOf_node2vec_hasLaw hg hexp hzero hp hq (fun w hw => hplain.step_hasLaw hg hexact hpropose hw) n hw

section input

variable {graph : TemporalGraph} (hg : graph.WellFormed) {edges : List Edge} {isDirected : Bool}
  (hstores : StoresInput graph edges graph.numVertices isDirected) (hin : EndpointsIn edges graph.numVertices)
  {exp : ℝ → ℝ} (hexp : ∀ x, 0 ≤ exp x) (hzero : exp 0 = 1) {self : Node2VecBias ℝ} (hp : 0 < self.p) (hq : 0 < self.q)
  {sets : NeighborSets} {ρ : OutSchedule graph} {sample : Sampler ℝ}
  (h : BuiltNode2vec graph exp self (sets.build graph isDirected ρ) sample)

include hg hstores hin hexp hzero hp hq h

theorem BuiltNode2vec.hops_within (n : Nat) {w : Walker} (hw : w.Known graph) (scratch : SamplerScratch ℝ) :
    (Prod.fst <$> hops sample n w.u w.tPrev w.prevU scratch).LawWithin
      (n * ENNReal.ofReal ((1 - self.minRatio) ^ 1024)) (inputNode2vecWalkLaw edges isDirected exp self n w) := by
  rw [NeighborSets.build_eq hg] at h
  have hneighbors := NeighborSets.ofGraph_isNeighborhood hstores hin
  exact ⟨_, h.hops_hasLaw hg hexp hzero hp hq n hw.1 scratch,
    node2vecWalkLaw_within_known hg hstores hneighbors hexp hzero hp hq n hw⟩

theorem BuiltNode2vec.start_within (n : Nat) {u : Int} (hu : (Walker.ofStart u).InGraph graph)
    (scratch : SamplerScratch ℝ) : (Prod.fst <$> hops sample n u kSentinelStartTimestamp (-1) scratch).LawWithin
      ((n - 1 : Nat) * ENNReal.ofReal ((1 - self.minRatio) ^ 1024))
      (inputNode2vecWalkLaw edges isDirected exp self n (.ofStart u)) := by
  rw [NeighborSets.build_eq hg] at h
  have hneighbors := NeighborSets.ofGraph_isNeighborhood hstores hin
  exact ⟨_, h.hops_hasLaw hg hexp hzero hp hq n hu scratch,
    node2vecWalkLaw_within hg hstores hneighbors hexp hzero hp hq n hu⟩

end input

/-- **Node2vec walks are within `(n - 1) * ρ ^ 1024` of the ideal ones** on the input, from every vertex, for every limit
`n` on the hops, under every schedule and with every layout of the tables. With `p = q = 1` there is no error, and the
ideal walks are those of the exponential bias. -/
theorem node2vecWalks_within (S : StdSort) (graph₀ : TemporalGraph) {edges : List Edge} {numVertices : Int}
    {isDirected : Bool} (σ : Schedule edges isDirected) (hin : EndpointsIn edges (vertexCount edges numVertices))
    {exp : ℝ → ℝ} (hexp : ∀ x, 0 ≤ exp x) (hzero : exp 0 = 1) {self : Node2VecBias ℝ} (hp : 0 < self.p)
    (hq : 0 < self.q) {u : Int} (hu : 0 ≤ u ∧ u < vertexCount edges numVertices) (n : Nat) :
    let graph := TemporalGraph.build S graph₀ edges numVertices isDirected σ
    let ideal := inputNode2vecWalkLaw edges isDirected exp self n (.ofStart u)
    let ε := (n - 1 : Nat) * ENNReal.ofReal ((1 - self.minRatio) ^ 1024)
    (∀ (sets : NeighborSets) (ρ : OutSchedule graph), ∀ sample,
      BuiltNode2vec graph exp self (sets.build graph isDirected ρ) sample → ∀ scratch : SamplerScratch ℝ,
        (Prod.fst <$> hops sample n u kSentinelStartTimestamp (-1) scratch).LawWithin ε ideal) ∧
    (self.p = 1 → self.q = 1 →
      ε = 0 ∧ ideal = inputWalkLaw edges isDirected (self.toBias exp) n (.ofStart u)) := by
  intro graph ideal ε
  obtain ⟨hg, hn, hstores⟩ : graph.WellFormed ∧ graph.numVertices = vertexCount edges numVertices ∧
      StoresInput graph edges graph.numVertices isDirected := build_walkable S graph₀ σ hin
  have hw : (Walker.ofStart u).InGraph graph := Walker.inGraph_of_lt hn hu
  constructor
  · intro sets ρ sample hsample scratch
    exact hsample.start_within hg hstores (hn ▸ hin) hexp hzero hp hq n hw scratch
  · intro hp1 hq1
    refine ⟨?_, inputNode2vecWalkLaw_plain edges isDirected exp hp1 hq1 n _⟩
    have hratio : self.minRatio = 1 := by
      rw [Node2VecBias.minRatio, hp1, hq1, one_div_one, min_self, min_self, max_self, max_self, div_one]
    show _ * ENNReal.ofReal ((1 - self.minRatio) ^ 1024) = 0
    rw [hratio, sub_self, zero_pow (by decide), ENNReal.ofReal_zero, mul_zero]

theorem node2vecWalks_within_example :
    let edges : List Edge := [⟨0, 1, 5⟩, ⟨2, 1, 4⟩, ⟨1, 0, 3⟩]
    let graph := TemporalGraph.build StdSort.stable {} edges 3 false (Schedule.serial edges false)
    let self : Node2VecBias ℝ := { p := 1 / 2, q := 2, timescaleBound := 1 }
    (Prod.fst <$> hops (patNode2vecSampler Real.exp graph (Pat.build {} graph (self.toBias Real.exp) kPatTrunkSizeMin
      (ForSchedule.serial _)) self (NeighborSets.build {} graph false (OutSchedule.serial graph))) 79 1
      kSentinelStartTimestamp (-1) {}).LawWithin ((79 - 1 : Nat) * ENNReal.ofReal ((1 - self.minRatio) ^ 1024))
        (inputNode2vecWalkLaw edges false Real.exp self 79 (.ofStart 1)) := by
  intro edges graph self
  exact (node2vecWalks_within StdSort.stable {} (Schedule.serial edges false) (by unfold EndpointsIn; decide)
    (fun x => (Real.exp_pos x).le) Real.exp_zero (by norm_num) (by norm_num) (by decide) 79).1 {}
    (OutSchedule.serial graph) _ (.pat {} kPatTrunkSizeMin (ForSchedule.serial _)) {}

end Tea
