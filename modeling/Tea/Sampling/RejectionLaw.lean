import Mathlib.Probability.Distributions.Uniform
import Tea.Lib.CappedRejection
import Tea.Lib.Expect
import Tea.Sampling.Rejection
/-!
# The law of node2vec rejection

The acceptance ratio of a step is its node2vec factor `beta` over the largest factor, so a proposal of mass `π x` that
is accepted with that ratio is taken in proportion to `π x * beta x`. `rejectionRetries` is the capped rejection of
`Tea.Lib.CappedRejection` with the retry cap as the number of rounds; only the law of the proposals enters, for every
scratch they may be drawn with.
-/

namespace Tea

open Arith Draw
open scoped ENNReal

/-! ### The acceptance ratio -/

namespace Node2VecBias

/-- The node2vec factor of a step to `v` of a walker that came from `prevU`: returning counts as returning, also
where `prevU` is its own neighbor. -/
noncomputable def beta (self : Node2VecBias ℝ) (prevU v : Int) (neighbors : NeighborSets) : ℝ :=
  if v = prevU then 1 / self.p else if neighbors.contains prevU v then 1 else 1 / self.q

theorem betaMax_eq (self : Node2VecBias ℝ) : self.betaMax = max (max (1 / self.p) 1) (1 / self.q) := by
  have hmax : ∀ a b : ℝ, maxOf a b = max a b := by
    intro a b
    unfold maxOf
    rw [lt_exact, max_def]
    by_cases h : a < b
    · rw [if_pos (by simpa using h), if_pos h.le]
    · rw [if_neg (by simpa using h)]
      split_ifs with hle
      · exact le_antisymm hle (not_lt.mp h)
      · rfl
  rw [betaMax, hmax, hmax]

variable {self : Node2VecBias ℝ} (hp : 0 < self.p) (hq : 0 < self.q) (prevU v : Int) (neighbors : NeighborSets)

theorem acceptRatio_eq (self : Node2VecBias ℝ) (prevU v : Int) (neighbors : NeighborSets) :
    self.acceptRatio prevU v neighbors =
      self.beta prevU v neighbors / max (max (1 / self.p) 1) (1 / self.q) := by
  unfold acceptRatio beta
  rw [betaMax_eq]
  split_ifs <;> rfl

include hp hq

theorem beta_pos : 0 < self.beta prevU v neighbors := by
  unfold beta
  split_ifs
  · exact one_div_pos.mpr hp
  · exact one_pos
  · exact one_div_pos.mpr hq

omit hp hq in
theorem beta_le : self.beta prevU v neighbors ≤ max (max (1 / self.p) 1) (1 / self.q) := by
  unfold beta
  split_ifs
  · exact (le_max_left _ _).trans (le_max_left _ _)
  · exact (le_max_right _ _).trans (le_max_left _ _)
  · exact le_max_right _ _

omit hp hq in
theorem one_le_betaMax : 1 ≤ max (max (1 / self.p) 1) (1 / self.q) :=
  (le_max_right _ _).trans (le_max_left _ _)

theorem acceptRatio_pos : 0 < self.acceptRatio prevU v neighbors := by
  rw [acceptRatio_eq]
  exact div_pos (beta_pos hp hq prevU v neighbors) (one_pos.trans_le one_le_betaMax)

omit hp hq in
theorem acceptRatio_le_one : self.acceptRatio prevU v neighbors ≤ 1 := by
  rw [acceptRatio_eq]
  exact div_le_one_of_le₀ (beta_le prevU v neighbors) (zero_le_one.trans one_le_betaMax)

end Node2VecBias

/-! ### The loop -/

section retries

variable {propose : SamplerScratch ℝ → Draw ℝ (SampledStep × SamplerScratch ℝ)} {accept : Int → ℝ} {prevU : Int}

theorem rejectionRetries_first (hfirst : prevU < 0) (retries : Nat) (lastStep : SampledStep)
    (scratch : SamplerScratch ℝ) :
    rejectionRetries propose accept prevU (retries + 1) lastStep scratch = propose scratch := by
  rw [rejectionRetries]
  refine Eq.trans (bind_congr fun r => ?_) (bind_pure _)
  dsimp only
  split_ifs <;> rfl

theorem run_rejectionRetries_dead {σ : Type} (g : Generator ℝ σ) (s : σ) (retries : Nat) (lastStep : SampledStep)
    (scratch : SamplerScratch ℝ) (hdead : ((propose scratch).run g s).1.1.v = kWalkDeadSentinel) :
    (rejectionRetries propose accept prevU (retries + 1) lastStep scratch).run g s = (propose scratch).run g s := by
  rw [rejectionRetries, Draw.run_bind]
  dsimp only
  rw [if_pos hdead]
  rfl

theorem rejectionRetries_all {U : ℝ → Prop} {Q : SampledStep → Prop}
    (h : ∀ scratch, (propose scratch).All U fun r => Q r.1) (retries : Nat) (lastStep : SampledStep)
    (scratch : SamplerScratch ℝ) (hlast : retries = 0 → Q lastStep) :
    (rejectionRetries propose accept prevU retries lastStep scratch).All U fun r => Q r.1 := by
  induction retries generalizing lastStep scratch with
  | zero => exact hlast rfl
  | succ retries ih =>
      refine (h scratch).bind fun r hr => ?_
      dsimp only
      split_ifs with hdead hfirst
      · exact hr
      · exact hr
      · rw [Draw.nextU01_bind, Draw.all_u01]
        intro u01 _
        split_ifs with haccept
        · exact hr
        · exact ih r.1 r.2 fun _ => hr

variable {π : SampledStep → ℝ≥0∞} (hlaw : ∀ scratch, (Prod.fst <$> propose scratch).HasLaw π)
  (hlive : ∀ x, π x ≠ 0 → x.v ≠ kWalkDeadSentinel) (hprev : 0 ≤ prevU) (ha : ∀ v, 0 ≤ accept v)
  (ha1 : ∀ v, accept v ≤ 1)

include hlaw hlive hprev ha ha1

theorem expect_round (retries : Nat) (lastStep : SampledStep) (scratch : SamplerScratch ℝ) (f : SampledStep → ℝ≥0∞)
    {rest : SampledStep → ℝ≥0∞}
    (hrest : ∀ step scratch,
      (Prod.fst <$> rejectionRetries propose accept prevU retries step scratch).expect f = rest step) :
    (Prod.fst <$> rejectionRetries propose accept prevU (retries + 1) lastStep scratch).expect f =
      tsum fun x => π x * (ENNReal.ofReal (accept x.v) * f x + (1 - ENNReal.ofReal (accept x.v)) * rest x) := by
  set after : SampledStep → ℝ≥0∞ := fun x =>
    if x.v = kWalkDeadSentinel then f x
    else ENNReal.ofReal (accept x.v) * f x + (1 - ENNReal.ofReal (accept x.v)) * rest x
  have hround : (Prod.fst <$> rejectionRetries propose accept prevU (retries + 1) lastStep scratch).expect f =
      (Prod.fst <$> propose scratch).expect after := by
    rw [rejectionRetries, Draw.expect_map, Draw.expect_map, Draw.expect_bind]
    congr 1
    funext r
    dsimp only [after]
    rw [if_neg (not_lt.mpr hprev)]
    split_ifs with hdead
    · rfl
    · have hcoin := lintegral_coin (ha r.1.v) (ha1 r.1.v) (f r.1) (rest r.1)
      rw [ENNReal.ofReal_sub _ (ha r.1.v), ENNReal.ofReal_one] at hcoin
      rw [← hcoin, Draw.nextU01_bind, Draw.expect_u01]
      refine MeasureTheory.lintegral_congr fun u01 => ?_
      by_cases haccept : u01 < accept r.1.v
      · rw [if_pos haccept, if_pos (by simpa using haccept)]
        rfl
      · rw [if_neg haccept, if_neg (by simpa using haccept), ← hrest r.1 r.2, Draw.expect_map]
  rw [hround, hlaw scratch after]
  refine tsum_congr fun x => ?_
  rcases eq_or_ne (π x) 0 with hzero | hne
  · rw [hzero, zero_mul, zero_mul]
  · rw [show after x = _ from if_neg (hlive x hne)]

/-- **The loop is capped rejection.** -/
theorem rejectionRetries_hasLaw (n : Nat) (lastStep : SampledStep) (scratch : SamplerScratch ℝ) :
    (Prod.fst <$> rejectionRetries propose accept prevU (n + 1) lastStep scratch).HasLaw
      (CappedRejection.law π (fun x => ENNReal.ofReal (accept x.v)) n) := by
  intro f
  induction n generalizing lastStep scratch with
  | zero =>
      have hlast : ∀ step scratch,
          (Prod.fst <$> rejectionRetries propose accept prevU 0 step scratch).expect f = f step := fun _ _ => rfl
      rw [expect_round hlaw hlive hprev ha ha1 0 lastStep scratch f hlast]
      refine tsum_congr fun x => ?_
      rw [CappedRejection.law, ← add_mul, add_tsub_cancel_of_le (by simpa using ha1 x.v), one_mul]
  | succ n ih =>
      rw [expect_round hlaw hlive hprev ha ha1 (n + 1) lastStep scratch f ih]
      simp only [CappedRejection.law, mul_add, add_mul, ENNReal.tsum_add, CappedRejection.rejected, ← mul_assoc]
      congr 1
      rw [ENNReal.tsum_mul_right, ← ENNReal.tsum_mul_left]
      exact tsum_congr fun x => by rw [mul_assoc]

end retries

/-! ### The law -/

section law

variable {propose : SamplerScratch ℝ → Draw ℝ (SampledStep × SamplerScratch ℝ)} {bias : Node2VecBias ℝ}
  (hp : 0 < bias.p) (hq : 0 < bias.q) {neighbors : NeighborSets} {prevU : Int} (hprev : 0 ≤ prevU)
  {π : SampledStep → ℝ} (hπ : ∀ x, 0 ≤ π x) (hsum : HasSum π 1)
  (hlaw : ∀ scratch, (Prod.fst <$> propose scratch).HasLaw fun x => ENNReal.ofReal (π x))
  (hlive : ∀ x, π x ≠ 0 → x.v ≠ kWalkDeadSentinel)

include hp hq hprev hπ hsum hlaw hlive

theorem node2vecRetries_hasLaw (n : Nat) (lastStep : SampledStep) (scratch : SamplerScratch ℝ) :
    (Prod.fst <$> rejectionRetries propose (fun v => bias.acceptRatio prevU v neighbors) prevU (n + 1) lastStep
      scratch).HasLaw fun x =>
        ENNReal.ofReal (CappedRejection.capped π (fun x => bias.acceptRatio prevU x.v neighbors) (n + 1) x) := by
  have hpos : ∀ v, 0 < bias.acceptRatio prevU v neighbors := fun v =>
    Node2VecBias.acceptRatio_pos hp hq prevU v neighbors
  have hle : ∀ v, bias.acceptRatio prevU v neighbors ≤ 1 := fun v =>
    Node2VecBias.acceptRatio_le_one prevU v neighbors
  have hlive' : ∀ x, ENNReal.ofReal (π x) ≠ 0 → x.v ≠ kWalkDeadSentinel := by
    intro x hx
    refine hlive x fun hzero => hx ?_
    rw [hzero, ENNReal.ofReal_zero]
  have h := rejectionRetries_hasLaw hlaw hlive' hprev (fun v => (hpos v).le) hle n lastStep scratch
  have hmasses := funext (CappedRejection.law_eq_ofReal hπ hsum
    (a := fun x : SampledStep => bias.acceptRatio prevU x.v neighbors) (fun x => (hpos x.v).le) (fun x => hle x.v) n)
  rwa [hmasses] at h

theorem node2vecRetries_tvDist_le (n : Nat) (lastStep : SampledStep) (scratch : SamplerScratch ℝ) :
    tvDist
      (fun x => ((Prod.fst <$> rejectionRetries propose (fun v => bias.acceptRatio prevU v neighbors) prevU (n + 1)
        lastStep scratch).prob fun y => y = x).toReal)
      (fun x => π x * bias.beta prevU x.v neighbors / tsum fun y => π y * bias.beta prevU y.v neighbors) ≤
      (1 - tsum fun x => π x * bias.acceptRatio prevU x.v neighbors) ^ (n + 1) := by
  set a : SampledStep → ℝ := fun x => bias.acceptRatio prevU x.v neighbors
  have hpos : ∀ x, 0 < a x := fun x => Node2VecBias.acceptRatio_pos hp hq prevU x.v neighbors
  have hle : ∀ x, a x ≤ 1 := fun x => Node2VecBias.acceptRatio_le_one prevU x.v neighbors
  have hA : 0 < CappedRejection.accepted π a :=
    CappedRejection.accepted_pos hπ hsum (fun x => (hpos x).le) hle hpos
  have htarget : (fun x => π x * bias.beta prevU x.v neighbors / tsum fun y => π y * bias.beta prevU y.v neighbors) =
      fun x => π x * a x / CappedRejection.accepted π a := by
    have hm : 0 < max (max (1 / bias.p) 1) (1 / bias.q) := one_pos.trans_le Node2VecBias.one_le_betaMax
    have hbeta : ∀ x, π x * bias.beta prevU x.v neighbors =
        max (max (1 / bias.p) 1) (1 / bias.q) * (π x * a x) := by
      intro x
      show _ = _ * (π x * bias.acceptRatio prevU x.v neighbors)
      rw [Node2VecBias.acceptRatio_eq, mul_left_comm, mul_div_cancel₀ _ hm.ne']
    funext x
    rw [tsum_congr hbeta, tsum_mul_left, hbeta, mul_div_mul_left _ _ hm.ne']
    rfl
  have hreturned : (fun x => ((Prod.fst <$> rejectionRetries propose (fun v => bias.acceptRatio prevU v neighbors)
      prevU (n + 1) lastStep scratch).prob fun y => y = x).toReal) = CappedRejection.capped π a (n + 1) := by
    funext x
    rw [(node2vecRetries_hasLaw hp hq hprev hπ hsum hlaw hlive n lastStep scratch).prob_eq x, ENNReal.toReal_ofReal]
    exact CappedRejection.capped_nonneg hπ hsum (fun x => (hpos x).le) hle (n + 1) x
  rw [htarget, hreturned]
  exact CappedRejection.tvDist_capped_le hπ hsum (fun x => (hpos x).le) hle hA (by omega)

end law

/-- **Node2vec rejection has the right law**, for every cap `R` on the retries; the code's cap is
`kNode2VecMaxRetries`. -/
theorem rejection_law (bias : Node2VecBias ℝ) (hp : 0 < bias.p) (hq : 0 < bias.q) (neighbors : NeighborSets)
    (prevU : Int) (propose : SamplerScratch ℝ → Draw ℝ (SampledStep × SamplerScratch ℝ)) (R : Nat) (hR : 1 ≤ R) :
    let a : SampledStep → ℝ := fun x => bias.acceptRatio prevU x.v neighbors
    let beta : SampledStep → ℝ := fun x => bias.beta prevU x.v neighbors
    let loop : SamplerScratch ℝ → Draw ℝ (SampledStep × SamplerScratch ℝ) := fun scratch =>
      rejectionRetries propose (fun v => bias.acceptRatio prevU v neighbors) prevU R .dead scratch
    (∀ x, 0 < a x ∧ a x ≤ 1 ∧ a x = beta x / max (max (1 / bias.p) 1) (1 / bias.q)) ∧
    (0 ≤ prevU → ∀ π : PMF SampledStep, (∀ scratch, (Prod.fst <$> propose scratch).HasLaw π) →
      (∀ x, π x ≠ 0 → x.v ≠ kWalkDeadSentinel) →
      let A : ℝ := tsum fun x => (π x).toReal * a x
      let ρ : ℝ := 1 - A
      ∀ scratch,
        (∀ x, (Prod.fst <$> loop scratch).prob (fun y => y = x) = ENNReal.ofReal
          ((π x).toReal * a x * ∑ k ∈ Finset.range R, ρ ^ k + ρ ^ (R - 1) * (π x).toReal * (1 - a x))) ∧
        tvDist (fun x => ((Prod.fst <$> loop scratch).prob fun y => y = x).toReal)
          (fun x => (π x).toReal * beta x / tsum fun y => (π y).toReal * beta y) ≤ ρ ^ R ∧
        (Prod.fst <$> loop scratch).prob (fun x => x.v = kWalkDeadSentinel) = 0) ∧
    -- live proposals, answer by answer
    (∀ U : ℝ → Prop, (∀ scratch, (propose scratch).All U fun r => r.1.v ≠ kWalkDeadSentinel) →
      ∀ scratch, (loop scratch).All U fun r => r.1.v ≠ kWalkDeadSentinel) ∧
    -- dead proposals
    (∀ (σ : Type) (g : Generator ℝ σ) (s : σ) (scratch : SamplerScratch ℝ),
      ((propose scratch).run g s).1.1.v = kWalkDeadSentinel → (loop scratch).run g s = (propose scratch).run g s) ∧
    -- the first step of a walk
    (prevU < 0 → ∀ scratch, loop scratch = propose scratch ∧ ∀ π : PMF SampledStep,
      (Prod.fst <$> propose scratch).HasLaw π → (Prod.fst <$> loop scratch).HasLaw π) := by
  intro a beta loop
  obtain ⟨n, rfl⟩ : ∃ n, R = n + 1 := ⟨R - 1, by omega⟩
  refine ⟨fun x => ⟨Node2VecBias.acceptRatio_pos hp hq prevU x.v neighbors,
    Node2VecBias.acceptRatio_le_one prevU x.v neighbors, Node2VecBias.acceptRatio_eq bias prevU x.v neighbors⟩,
    fun hprev π hlaw hlive => ?_, fun U hU scratch => ?_, fun σ g s scratch hdead => ?_, fun hfirst scratch => ?_⟩
  · intro A ρ scratch
    have hmasses : (fun x => ENNReal.ofReal (π x).toReal) = π :=
      funext fun x => ENNReal.ofReal_toReal (π.apply_ne_top x)
    have hsum : HasSum (fun x => (π x).toReal) 1 := by
      have htop : tsum π ≠ ⊤ := π.tsum_coe ▸ ENNReal.one_ne_top
      have h := ENNReal.hasSum_toReal htop
      rwa [← ENNReal.tsum_toReal_eq π.apply_ne_top, π.tsum_coe, ENNReal.toReal_one] at h
    have hlaw' : ∀ scratch, (Prod.fst <$> propose scratch).HasLaw fun x => ENNReal.ofReal (π x).toReal := by
      rw [hmasses]
      exact hlaw
    have hlive' : ∀ x, (π x).toReal ≠ 0 → x.v ≠ kWalkDeadSentinel := by
      intro x hx
      refine hlive x fun hzero => hx ?_
      rw [hzero, ENNReal.toReal_zero]
    have hloop : (Prod.fst <$> loop scratch).HasLaw fun x =>
        ENNReal.ofReal (CappedRejection.capped (fun y => (π y).toReal) a (n + 1) x) :=
      node2vecRetries_hasLaw hp hq hprev (fun x => ENNReal.toReal_nonneg) hsum hlaw' hlive' n .dead scratch
    refine ⟨fun x => hloop.prob_eq x, ?_, ?_⟩
    · exact node2vecRetries_tvDist_le hp hq hprev (fun x => ENNReal.toReal_nonneg) hsum hlaw' hlive' n .dead scratch
    · rw [Draw.prob, hloop]
      refine ENNReal.tsum_eq_zero.mpr fun x => ?_
      by_cases hdead : x.v = kWalkDeadSentinel
      · have hzero : (π x).toReal = 0 := by
          by_contra hne
          exact hlive' x hne hdead
        have hnone : CappedRejection.capped (fun y => (π y).toReal) a (n + 1) x = 0 := by
          simp [CappedRejection.capped, hzero]
        show ENNReal.ofReal (CappedRejection.capped (fun y => (π y).toReal) a (n + 1) x) * _ = 0
        rw [hnone, ENNReal.ofReal_zero, zero_mul]
      · rw [if_neg hdead, mul_zero]
  · exact rejectionRetries_all (Q := fun x => x.v ≠ kWalkDeadSentinel) hU (n + 1) .dead scratch fun h => absurd h (by omega)
  · exact run_rejectionRetries_dead g s n .dead scratch hdead
  · have hloop : loop scratch = propose scratch := rejectionRetries_first hfirst n .dead scratch
    rw [hloop]
    exact ⟨rfl, fun π h => h⟩

/-- The way back to vertex 4 and a step to vertex 3, with the same probability. -/
noncomputable def twoSteps : PMF SampledStep := PMF.uniformOfFinset {⟨4, 7⟩, ⟨3, 7⟩} (by simp)

def proposeTwo (scratch : SamplerScratch ℝ) : Draw ℝ (SampledStep × SamplerScratch ℝ) := do
  let i ← Draw.nextBelow 2
  return (if i = 0 then ⟨4, 7⟩ else ⟨3, 7⟩, scratch)

theorem twoSteps_apply (x : SampledStep) : twoSteps x = if x = ⟨4, 7⟩ ∨ x = ⟨3, 7⟩ then 2⁻¹ else 0 := by
  rw [twoSteps, PMF.uniformOfFinset_apply, Finset.card_pair (by decide)]
  simp

theorem tsum_twoSteps (f : SampledStep → ℝ) :
    (tsum fun x => (twoSteps x).toReal * f x) = 1 / 2 * f ⟨4, 7⟩ + 1 / 2 * f ⟨3, 7⟩ := by
  have hzero : ∀ x ∉ ({⟨4, 7⟩, ⟨3, 7⟩} : Finset SampledStep), (twoSteps x).toReal * f x = 0 := by
    intro x hx
    rw [twoSteps_apply, if_neg (by simpa using hx), ENNReal.toReal_zero, zero_mul]
  rw [tsum_eq_sum hzero, Finset.sum_pair (by decide)]
  simp [twoSteps_apply]

theorem proposeTwo_hasLaw (scratch : SamplerScratch ℝ) : (Prod.fst <$> proposeTwo scratch).HasLaw twoSteps := by
  intro f
  have hzero : ∀ x ∉ ({⟨4, 7⟩, ⟨3, 7⟩} : Finset SampledStep), twoSteps x * f x = 0 := by
    intro x hx
    rw [twoSteps_apply, if_neg (by simpa using hx), zero_mul]
  rw [tsum_eq_sum hzero, Finset.sum_pair (by decide), proposeTwo, expect_map, Draw.nextBelow_bind, expect_index]
  simp [twoSteps_apply, Finset.sum_range_succ, div_eq_mul_inv, mul_add, mul_comm]

theorem twoSteps_live {x : SampledStep} (hx : twoSteps x ≠ 0) : x.v ≠ kWalkDeadSentinel := by
  rw [twoSteps_apply] at hx
  split_ifs at hx with hmem
  · rcases hmem with rfl | rfl <;> decide
  · exact absurd rfl hx

/-- With `p = 4` and `q = 1 / 2`, at a walker that came from vertex 4, whose neighbor is vertex 3. -/
theorem beta_twoSteps :
    let bias : Node2VecBias ℝ := { p := 4, q := 1 / 2 }
    let neighbors : NeighborSets := ⟨[4, 3], [0, 0, 0, 0, 1, 2]⟩
    bias.beta 4 4 neighbors = 1 / 4 ∧ bias.beta 4 3 neighbors = 1 := by
  intro bias neighbors
  have hcontains : neighbors.contains 4 3 = true := by decide
  refine ⟨if_pos rfl, ?_⟩
  rw [Node2VecBias.beta, if_neg (by decide), if_pos hcontains]

theorem acceptRatio_twoSteps :
    let bias : Node2VecBias ℝ := { p := 4, q := 1 / 2 }
    let neighbors : NeighborSets := ⟨[4, 3], [0, 0, 0, 0, 1, 2]⟩
    bias.acceptRatio 4 4 neighbors = 1 / 8 ∧ bias.acceptRatio 4 3 neighbors = 1 / 2 := by
  intro bias neighbors
  obtain ⟨hback, hstep⟩ := beta_twoSteps
  have hmax : max (max (1 / bias.p) 1) (1 / bias.q) = 2 := by
    show max (max (1 / (4 : ℝ)) 1) (1 / (1 / 2)) = 2
    norm_num
  rw [Node2VecBias.acceptRatio_eq, Node2VecBias.acceptRatio_eq, hmax, hback, hstep]
  norm_num

theorem target_twoSteps (x : SampledStep) :
    let bias : Node2VecBias ℝ := { p := 4, q := 1 / 2 }
    let neighbors : NeighborSets := ⟨[4, 3], [0, 0, 0, 0, 1, 2]⟩
    ((twoSteps x).toReal * bias.beta 4 x.v neighbors /
        tsum fun y => (twoSteps y).toReal * bias.beta 4 y.v neighbors) =
      if x = ⟨4, 7⟩ then 1 / 5 else if x = ⟨3, 7⟩ then 4 / 5 else 0 := by
  intro bias neighbors
  obtain ⟨hback, hstep⟩ := beta_twoSteps
  rw [tsum_twoSteps, twoSteps_apply]
  dsimp only
  rw [hback, hstep]
  by_cases hx : x = ⟨4, 7⟩
  · rw [if_pos (Or.inl hx), if_pos hx, hx, hback]
    norm_num
  rw [if_neg hx]
  by_cases hx' : x = ⟨3, 7⟩
  · rw [if_pos (Or.inr hx'), if_pos hx', hx', hstep]
    norm_num
  · rw [if_neg (by simp [hx, hx']), if_neg hx', ENNReal.toReal_zero, zero_mul, zero_div]

/-- A walker that came from vertex 4 is offered the way back and a neighbor of vertex 4. With `p = 4` and `q = 1 / 2` it
takes the neighbor four times as often, up to the cap. -/
theorem rejection_law_twoSteps :
    let bias : Node2VecBias ℝ := { p := 4, q := 1 / 2 }
    let neighbors : NeighborSets := ⟨[4, 3], [0, 0, 0, 0, 1, 2]⟩
    let sample := Prod.fst <$> rejectionLoop proposeTwo bias 4 neighbors {}
    sample.prob (fun y => y = ⟨3, 7⟩) = ENNReal.ofReal
      (1 / 2 * (1 / 2) * ∑ k ∈ Finset.range 1024, (11 / 16) ^ k + (11 / 16) ^ 1023 * (1 / 2) * (1 - 1 / 2)) ∧
    sample.prob (fun y => y = ⟨4, 7⟩) = ENNReal.ofReal
      (1 / 2 * (1 / 8) * ∑ k ∈ Finset.range 1024, (11 / 16) ^ k + (11 / 16) ^ 1023 * (1 / 2) * (1 - 1 / 8)) ∧
    tvDist (fun x => (sample.prob fun y => y = x).toReal)
      (fun x => if x = ⟨4, 7⟩ then 1 / 5 else if x = ⟨3, 7⟩ then 4 / 5 else 0) ≤ (11 / 16) ^ 1024 ∧
    sample.prob (fun x => x.v = kWalkDeadSentinel) = 0 := by
  intro bias neighbors sample
  obtain ⟨hback, hstep⟩ := acceptRatio_twoSteps
  have hmass : (twoSteps ⟨3, 7⟩).toReal = 1 / 2 ∧ (twoSteps ⟨4, 7⟩).toReal = 1 / 2 := by
    simp [twoSteps_apply]
  have hρ : 1 - (tsum fun x => (twoSteps x).toReal * bias.acceptRatio 4 x.v neighbors) = 11 / 16 := by
    rw [tsum_twoSteps]
    dsimp only
    rw [hback, hstep]
    norm_num
  obtain ⟨hprob, hdist, hdead⟩ := (rejection_law bias (show (0 : ℝ) < 4 by norm_num)
    (show (0 : ℝ) < 1 / 2 by norm_num) neighbors 4 proposeTwo kNode2VecMaxRetries (by decide)).2.1 (by norm_num) twoSteps
    proposeTwo_hasLaw (fun _ => twoSteps_live) {}
  dsimp only at hprob hdist
  rw [hρ, funext target_twoSteps] at hdist
  simp only [hρ] at hprob
  refine ⟨?_, ?_, hdist, hdead⟩
  · have h := hprob ⟨3, 7⟩
    dsimp only at h
    rw [hmass.1, hstep] at h
    exact h
  · have h := hprob ⟨4, 7⟩
    dsimp only at h
    rw [hmass.2, hback] at h
    exact h

end Tea
