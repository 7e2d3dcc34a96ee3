import Mathlib.Analysis.SpecificLimits.Basic
import Mathlib.Topology.Algebra.InfiniteSum.ENNReal
/-!
# Rejection sampling with a cap

A proposal `x` of mass `p x` is accepted with probability `a x`; a rejected one is replaced by an independent new
proposal, and the last round takes its proposal in any case. `law p a n` is the law of what `n + 1` rounds return, by
recursion on the rounds, and `law_eq_ofReal` its closed form

  `p x * a x * (1 + ρ + ... + ρ ^ (R - 1)) + ρ ^ (R - 1) * p x * (1 - a x)`  for `R = n + 1` rounds,

where `ρ` is the probability that a proposal is rejected. It is within `ρ ^ R` of the law without a cap, which has masses
`p x * a x / ∑ p a` (`tvDist_capped_le`).
-/

namespace Tea

open scoped ENNReal

/-- The total variation distance of two mass functions. -/
noncomputable def tvDist {α : Type} (p q : α → ℝ) : ℝ := (tsum fun x => |p x - q x|) / 2

namespace CappedRejection

variable {α : Type}

/-! ### The law by recursion -/

/-- The probability that a proposal is rejected. -/
noncomputable def rejected (p a : α → ℝ≥0∞) : ℝ≥0∞ := tsum fun x => p x * (1 - a x)

/-- The law of `n + 1` rounds, the last of which takes its proposal in any case. -/
noncomputable def law (p a : α → ℝ≥0∞) : (n : Nat) → α → ℝ≥0∞
  | 0, x => p x
  | n + 1, x => p x * a x + rejected p a * law p a n x

theorem law_eq (p : α → ℝ≥0∞) {a : α → ℝ≥0∞} (ha : ∀ x, a x ≤ 1) (n : Nat) (x : α) :
    law p a n x =
      p x * a x * ∑ k ∈ Finset.range (n + 1), rejected p a ^ k + rejected p a ^ n * (p x * (1 - a x)) := by
  induction n with
  | zero =>
      rw [law, Finset.sum_range_one, pow_zero, mul_one, one_mul, ← mul_add, add_tsub_cancel_of_le (ha x), mul_one]
  | succ n ih =>
      rw [law, ih, Finset.sum_range_succ' _ (n + 1)]
      simp only [pow_succ, pow_zero]
      rw [← Finset.sum_mul]
      ring

/-! ### The closed form -/

/-- The probability that a proposal is accepted. -/
noncomputable def accepted (p a : α → ℝ) : ℝ := tsum fun x => p x * a x

/-- What `R` rounds return `x` with. -/
noncomputable def capped (p a : α → ℝ) (R : Nat) (x : α) : ℝ :=
  p x * a x * ∑ k ∈ Finset.range R, (1 - accepted p a) ^ k + (1 - accepted p a) ^ (R - 1) * p x * (1 - a x)

section masses

variable {p a : α → ℝ} (hp : ∀ x, 0 ≤ p x) (hsum : HasSum p 1) (ha : ∀ x, 0 ≤ a x) (ha1 : ∀ x, a x ≤ 1)

include hp hsum ha ha1

theorem hasSum_accepted : HasSum (fun x => p x * a x) (accepted p a) := by
  refine (Summable.of_nonneg_of_le (fun x => mul_nonneg (hp x) (ha x)) (fun x => ?_) hsum.summable).hasSum
  exact mul_le_of_le_one_right (hp x) (ha1 x)

theorem hasSum_rejected : HasSum (fun x => p x * (1 - a x)) (1 - accepted p a) := by
  have h := hsum.sub (hasSum_accepted hp hsum ha ha1)
  simpa only [mul_sub, mul_one] using h

theorem accepted_le_one : accepted p a ≤ 1 := by
  have h := (hasSum_rejected hp hsum ha ha1).nonneg fun x => mul_nonneg (hp x) (sub_nonneg.mpr (ha1 x))
  linarith

theorem accepted_pos (hpos : ∀ x, 0 < a x) : 0 < accepted p a := by
  have hne : ∃ x, 0 < p x := by
    by_contra hnone
    push Not at hnone
    have hzero : p = 0 := funext fun x => le_antisymm (hnone x) (hp x)
    rw [hzero] at hsum
    exact zero_ne_one (hasSum_zero.unique hsum)
  obtain ⟨x, hx⟩ := hne
  exact (hasSum_accepted hp hsum ha ha1).summable.tsum_pos (fun y => mul_nonneg (hp y) (ha y)) x
    (mul_pos hx (hpos x))

theorem rejected_ofReal :
    rejected (fun x => ENNReal.ofReal (p x)) (fun x => ENNReal.ofReal (a x)) =
      ENNReal.ofReal (1 - accepted p a) := by
  have h := hasSum_rejected hp hsum ha ha1
  rw [rejected, ← h.tsum_eq,
    ENNReal.ofReal_tsum_of_nonneg (fun x => mul_nonneg (hp x) (sub_nonneg.mpr (ha1 x))) h.summable]
  refine tsum_congr fun x => ?_
  rw [ENNReal.ofReal_mul (hp x), ENNReal.ofReal_sub _ (ha x), ENNReal.ofReal_one]

theorem capped_nonneg (R : Nat) (x : α) : 0 ≤ capped p a R x := by
  have hrho : 0 ≤ 1 - accepted p a := sub_nonneg.mpr (accepted_le_one hp hsum ha ha1)
  refine add_nonneg (mul_nonneg (mul_nonneg (hp x) (ha x)) (Finset.sum_nonneg fun k _ => pow_nonneg hrho k)) ?_
  exact mul_nonneg (mul_nonneg (pow_nonneg hrho _) (hp x)) (sub_nonneg.mpr (ha1 x))

/-- **The law of the rounds** in closed form. -/
theorem law_eq_ofReal (n : Nat) (x : α) :
    law (fun x => ENNReal.ofReal (p x)) (fun x => ENNReal.ofReal (a x)) n x = ENNReal.ofReal (capped p a (n + 1) x) := by
  have hrho : 0 ≤ 1 - accepted p a := sub_nonneg.mpr (accepted_le_one hp hsum ha ha1)
  have hgeom : 0 ≤ ∑ k ∈ Finset.range (n + 1), (1 - accepted p a) ^ k :=
    Finset.sum_nonneg fun k _ => pow_nonneg hrho k
  rw [law_eq _ (fun x => by simpa using ha1 x), rejected_ofReal hp hsum ha ha1, capped, Nat.add_sub_cancel,
    ENNReal.ofReal_add (mul_nonneg (mul_nonneg (hp x) (ha x)) hgeom)
      (mul_nonneg (mul_nonneg (pow_nonneg hrho n) (hp x)) (sub_nonneg.mpr (ha1 x))),
    ENNReal.ofReal_mul (mul_nonneg (hp x) (ha x)), ENNReal.ofReal_mul (hp x),
    ENNReal.ofReal_mul (mul_nonneg (pow_nonneg hrho n) (hp x)), ENNReal.ofReal_mul (pow_nonneg hrho n),
    ENNReal.ofReal_sub _ (ha x), ENNReal.ofReal_one, ENNReal.ofReal_sum_of_nonneg fun k _ => pow_nonneg hrho k,
    ENNReal.ofReal_pow hrho, mul_assoc (_ ^ n)]
  congr 2
  exact Finset.sum_congr rfl fun k _ => (ENNReal.ofReal_pow hrho k).symm

/-! ### The distance to the law without a cap -/

/-- One mass of the difference: what the cap takes from the accepted proposals and what it gives to the last one. -/
theorem capped_sub_le (hA : 0 < accepted p a) (R : Nat) (x : α) :
    |capped p a R x - p x * a x / accepted p a| ≤
      (1 - accepted p a) ^ R / accepted p a * (p x * a x) + (1 - accepted p a) ^ (R - 1) * (p x * (1 - a x)) := by
  set A := accepted p a
  have hrho : 0 ≤ 1 - A := sub_nonneg.mpr (accepted_le_one hp hsum ha ha1)
  have hgeom : ∑ k ∈ Finset.range R, (1 - A) ^ k = (1 - (1 - A) ^ R) / A := by
    rw [eq_div_iff hA.ne']
    have h := geom_sum_mul_neg (1 - A) R
    rwa [sub_sub_cancel] at h
  have hdiff : capped p a R x - p x * a x / A =
      -((1 - A) ^ R / A * (p x * a x)) + (1 - A) ^ (R - 1) * (p x * (1 - a x)) := by
    rw [capped, hgeom]
    ring
  have htaken : 0 ≤ (1 - A) ^ R / A * (p x * a x) :=
    mul_nonneg (div_nonneg (pow_nonneg hrho R) hA.le) (mul_nonneg (hp x) (ha x))
  have hgiven : 0 ≤ (1 - A) ^ (R - 1) * (p x * (1 - a x)) :=
    mul_nonneg (pow_nonneg hrho _) (mul_nonneg (hp x) (sub_nonneg.mpr (ha1 x)))
  rw [hdiff, abs_le]
  constructor <;> linarith

/-- **The cap costs at most `ρ ^ R`.** -/
theorem tvDist_capped_le (hA : 0 < accepted p a) {R : Nat} (hR : 1 ≤ R) :
    tvDist (capped p a R) (fun x => p x * a x / accepted p a) ≤ (1 - accepted p a) ^ R := by
  have hbound := ((hasSum_accepted hp hsum ha ha1).mul_left ((1 - accepted p a) ^ R / accepted p a)).add
    ((hasSum_rejected hp hsum ha ha1).mul_left ((1 - accepted p a) ^ (R - 1)))
  have hle := capped_sub_le hp hsum ha ha1 hA R
  have hsummable : Summable fun x => |capped p a R x - p x * a x / accepted p a| :=
    Summable.of_nonneg_of_le (fun x => abs_nonneg _) hle hbound.summable
  have htotal : (tsum fun x => |capped p a R x - p x * a x / accepted p a|) ≤
      (1 - accepted p a) ^ R / accepted p a * accepted p a + (1 - accepted p a) ^ (R - 1) * (1 - accepted p a) :=
    hasSum_le hle hsummable.hasSum hbound
  rw [div_mul_cancel₀ _ hA.ne', ← pow_succ, Nat.sub_add_cancel hR] at htotal
  rw [tvDist]
  linarith

end masses

end CappedRejection

end Tea
