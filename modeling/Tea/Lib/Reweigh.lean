import Tea.Lib.Laws
/-!
# Reweighing a law by rejection

`reweigh p a` takes a result in proportion to `p x * a x`. Rejection with a cap realises it approximately: `n + 1`
proposals of law `p`, accepted with probability `a x`, the last one in any case, return a result whose law is within
`ρ ^ (n + 1)` of it, where `ρ` is the probability that a proposal is rejected (`within_rejection`). Reweighing a pick by
weight is multiplying the weights (`reweigh_pick`).
-/

namespace Tea.Laws

open CappedRejection
open scoped ENNReal

variable {α : Type}

section reweigh

variable (p : PMF α) {a : α → ℝ≥0∞} (hpos : ∀ x, a x ≠ 0) (hle : ∀ x, a x ≤ 1)

include hpos in
theorem mean_ne_zero : mean p a ≠ 0 := by
  intro hzero
  obtain ⟨x, hx⟩ := p.support_nonempty
  have hmass := ENNReal.tsum_eq_zero.mp hzero x
  exact mul_ne_zero ((p.mem_support_iff x).mp hx) (hpos x) hmass

/-- The law with masses in proportion to `p x * a x`. -/
noncomputable def reweigh (a : α → ℝ≥0∞) (hpos : ∀ x, a x ≠ 0) (hle : ∀ x, a x ≤ 1) : PMF α :=
  PMF.normalize (fun x => p x * a x) (mean_ne_zero p hpos) (mean_ne_top p hle)

theorem mean_mul_mean_reweigh (f : α → ℝ≥0∞) :
    mean p a * mean (reweigh p a hpos hle) f = mean p fun x => a x * f x := by
  have hscale : ∀ x, reweigh p a hpos hle x = (mean p a)⁻¹ * (p x * a x) := fun x => mul_comm _ _
  show mean p a * (tsum fun x => reweigh p a hpos hle x * f x) = _
  simp only [hscale, mul_assoc]
  rw [ENNReal.tsum_mul_left, ← mul_assoc, ENNReal.mul_inv_cancel (mean_ne_zero p hpos) (mean_ne_top p hle), one_mul]
  rfl

/-! ### Rejection with a cap -/

include hle in
theorem mean_add_rejected : mean p a + rejected p a = 1 := by
  show mean p a + mean p (fun x => 1 - a x) = 1
  rw [← mean_add, mean_congr fun x _ => add_tsub_cancel_of_le (hle x), mean_const]

theorem rejected_le {κ : ℝ≥0∞} (h : ∀ x, κ ≤ a x) : rejected p a ≤ 1 - κ :=
  (mean_mono fun x _ => tsub_le_tsub_left (h x) 1).trans_eq (mean_const p (1 - κ))

theorem law_succ (n : Nat) (f : α → ℝ≥0∞) : (tsum fun x => law p a (n + 1) x * f x) =
    mean p (fun x => a x * f x) + rejected p a * tsum fun x => law p a n x * f x := by
  rw [mean, ← ENNReal.tsum_mul_left, ← ENNReal.tsum_add]
  apply tsum_congr
  intro x
  rw [law, add_mul, mul_assoc, mul_assoc]

include hle in
theorem tsum_law (n : Nat) : tsum (law p a n) = 1 := by
  induction n with
  | zero => exact p.tsum_coe
  | succ n ih =>
      have h := law_succ p (a := a) n fun _ => 1
      simp only [mul_one] at h
      rw [h, ih, mul_one, mean_add_rejected p hle]

/-- The law of `n + 1` proposals, the last of which is taken in any case. -/
noncomputable def rejection (a : α → ℝ≥0∞) (hle : ∀ x, a x ≤ 1) (n : Nat) : PMF α :=
  ⟨law p a n, ENNReal.summable.hasSum_iff.mpr (tsum_law p hle n)⟩

theorem rejection_proposed {n : Nat} {x : α} (hx : rejection p a hle n x ≠ 0) : p x ≠ 0 := by
  intro hzero
  have hlaw : ∀ n, law p a n x = 0 := by
    intro n
    induction n with
    | zero => exact hzero
    | succ n ih => rw [law, hzero, zero_mul, zero_add, ih, mul_zero]
  exact hx (hlaw n)

theorem rejection_ne_zero (hpos : ∀ x, a x ≠ 0) (n : Nat) {x : α} (hx : p x ≠ 0) : rejection p a hle n x ≠ 0 := by
  show law p a n x ≠ 0
  cases n with
  | zero => exact hx
  | succ n =>
      have hfirst : p x * a x ≠ 0 := mul_ne_zero hx (hpos x)
      rw [law]
      exact fun h => hfirst (add_eq_zero.mp h).1

/-- **The cap costs at most `ρ ^ (n + 1)`**: each proposal that is rejected multiplies the error by `ρ`. -/
theorem within_rejection (n : Nat) :
    Within (rejected p a ^ (n + 1)) (rejection p a hle n) (reweigh p a hpos hle) := by
  intro f hf
  set I := mean (reweigh p a hpos hle) f with hI
  have haccepted : mean p (fun x => a x * f x) = mean p a * I := (mean_mul_mean_reweigh p hpos hle f).symm
  have hsplit : mean p a * I + rejected p a * I = I := by rw [← add_mul, mean_add_rejected p hle, one_mul]
  show (tsum fun x => law p a n x * f x) ≤ _
  induction n with
  | zero =>
      have hzero : (tsum fun x => law p a 0 x * f x) =
          mean p (fun x => a x * f x) + mean p fun x => (1 - a x) * f x := by
        rw [← mean_add]
        apply mean_congr
        intro x _
        rw [← add_mul, add_tsub_cancel_of_le (hle x), one_mul]
      have hlast : mean p (fun x => (1 - a x) * f x) ≤ rejected p a :=
        mean_mono fun x _ => mul_le_of_le_one_right' (hf x)
      have hfirst : mean p a * I ≤ I := mul_le_of_le_one_left' (mean_le_one hle)
      rw [hzero, haccepted, zero_add, pow_one]
      exact add_le_add hfirst hlast
  | succ n ih =>
      rw [law_succ, haccepted]
      calc mean p a * I + rejected p a * tsum (fun x => law p a n x * f x)
          ≤ mean p a * I + rejected p a * (I + rejected p a ^ (n + 1)) := add_le_add_right (mul_le_mul_right ih _) _
        _ = I + rejected p a ^ (n + 2) := by rw [mul_add, ← add_assoc, hsplit, ← pow_succ']

end reweigh

/-! ### Picking by weight -/

theorem reweigh_pick (xs : List α) {w : Nat → ℝ≥0∞} (hw : ∀ i, w i ≠ ⊤) (default : α)
    (hsum : ∑ i ∈ Finset.range xs.length, w i ≠ 0) {a : α → ℝ≥0∞} (hpos : ∀ x, a x ≠ 0) (hle : ∀ x, a x ≤ 1) :
    reweigh (pick xs w default) a hpos hle = pick xs (fun i => w i * a (xs.getD i default)) default := by
  have htop : ∀ i, w i * a (xs.getD i default) ≠ ⊤ := fun i =>
    ENNReal.mul_ne_top (hw i) ((hle _).trans_lt ENNReal.one_lt_top).ne
  have hsums : (∑ i ∈ Finset.range xs.length, w i) * mean (pick xs w default) a =
      ∑ i ∈ Finset.range xs.length, w i * a (xs.getD i default) := sum_mul_mean_pick xs hw default hsum a
  have hne : ∑ i ∈ Finset.range xs.length, w i * a (xs.getD i default) ≠ 0 := by
    rw [← hsums]
    exact mul_ne_zero hsum (mean_ne_zero _ hpos)
  apply ext_mean
  intro f _
  apply (ENNReal.mul_right_inj hne (ENNReal.sum_ne_top.mpr fun i _ => htop i)).mp
  rw [sum_mul_mean_pick xs htop default hne, ← hsums, mul_assoc, mean_mul_mean_reweigh,
    sum_mul_mean_pick xs hw default hsum]
  simp only [mul_assoc]

theorem pick_scale (xs : List α) {w : Nat → ℝ≥0∞} (hw : ∀ i, w i ≠ ⊤) (default : α) {c : ℝ≥0∞} (hc : c ≠ 0)
    (hc' : c ≠ ⊤) : pick xs (fun i => c * w i) default = pick xs w default := by
  apply ext_mean
  intro f _
  rw [mean_pick xs hw, mean_pick xs fun i => ENNReal.mul_ne_top hc' (hw i)]
  simp only [← Finset.mul_sum, mul_eq_zero, hc, false_or, ENNReal.mul_div_mul_left _ _ hc hc']

end Tea.Laws
