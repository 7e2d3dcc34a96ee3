import Mathlib.MeasureTheory.Measure.Lebesgue.Basic
import Tea.Lib.Draw
/-!
# Expectations of random programs

`expect d f` is the expectation of `f` over the results of `d`, when its doubles and floats are uniform on `[0, 1)`,
its indices uniform below their bounds, and all draws independent. It is defined by recursion on the program, so a
program is computed draw by draw (`expect_bind`).

Inverse transform sampling is one fact about integrals: a function that is constant on consecutive intervals has
the sum of the lengths times the values as its integral (`lintegral_steps`).
-/

namespace Tea

open MeasureTheory
open scoped ENNReal

namespace Draw

variable {α β : Type}

/-- The expectation of `f` over the results. -/
noncomputable def expect : Draw ℝ α → (α → ℝ≥0∞) → ℝ≥0∞
  | ret a, f => f a
  | u01 next, f => ∫⁻ x in Set.Ico (0 : ℝ) 1, (next x).expect f
  | f01 next, f => ∫⁻ x in Set.Ico (0 : ℝ) 1, (next x).expect f
  | index n next, f => (∑ i ∈ Finset.range n, (next i).expect f) / n

open Classical in
/-- The probability that the result satisfies `p`. -/
noncomputable def prob (d : Draw ℝ α) (p : α → Prop) : ℝ≥0∞ := d.expect fun a => if p a then 1 else 0

theorem prob_eq_expect (d : Draw ℝ α) (p : α → Prop) [DecidablePred p] :
    d.prob p = d.expect fun a => if p a then 1 else 0 := by
  unfold prob
  congr
  funext a
  split_ifs <;> rfl

@[simp] theorem expect_pure (a : α) (f : α → ℝ≥0∞) : (pure a : Draw ℝ α).expect f = f a := rfl

@[simp] theorem expect_u01 (next : ℝ → Draw ℝ α) (f : α → ℝ≥0∞) :
    (u01 next).expect f = ∫⁻ x in Set.Ico (0 : ℝ) 1, (next x).expect f := rfl

@[simp] theorem expect_f01 (next : ℝ → Draw ℝ α) (f : α → ℝ≥0∞) :
    (f01 next).expect f = ∫⁻ x in Set.Ico (0 : ℝ) 1, (next x).expect f := rfl

@[simp] theorem expect_index (n : Nat) (next : Nat → Draw ℝ α) (f : α → ℝ≥0∞) :
    (index n next).expect f = (∑ i ∈ Finset.range n, (next i).expect f) / n := rfl

theorem expect_bind (d : Draw ℝ α) (g : α → Draw ℝ β) (f : β → ℝ≥0∞) :
    (d >>= g).expect f = d.expect fun a => (g a).expect f := by
  induction d with
  | ret a => rfl
  | u01 next ih =>
      rw [u01_bind, expect_u01, expect_u01]
      exact lintegral_congr ih
  | f01 next ih =>
      rw [f01_bind, expect_f01, expect_f01]
      exact lintegral_congr ih
  | index n next ih =>
      rw [index_bind, expect_index, expect_index]
      exact congrArg (· / (n : ℝ≥0∞)) (Finset.sum_congr rfl fun i _ => ih i)

theorem expect_map (d : Draw ℝ α) (g : α → β) (f : β → ℝ≥0∞) :
    (g <$> d).expect f = d.expect fun a => f (g a) := by
  rw [map_eq_pure_bind, expect_bind]
  rfl

/-- The results of `d` are distributed by the masses `μ`. -/
def HasLaw (d : Draw ℝ α) (μ : α → ℝ≥0∞) : Prop := ∀ f, d.expect f = tsum fun a => μ a * f a

theorem HasLaw.prob_eq {d : Draw ℝ α} {μ : α → ℝ≥0∞} (h : d.HasLaw μ) (a : α) : d.prob (fun b => b = a) = μ a := by
  rw [prob, h, tsum_eq_single a fun b hb => by rw [if_neg hb, mul_zero], if_pos rfl, mul_one]

end Draw

/-! ### Step functions -/

theorem lintegral_steps {d : Nat → ℝ} (hd : Monotone d) (F : ℝ → ℝ≥0∞) (A : Nat → ℝ≥0∞) (m : Nat)
    (h : ∀ j < m, ∀ x, d j ≤ x → x < d (j + 1) → F x = A j) :
    ∫⁻ x in Set.Ico (d 0) (d m), F x = ∑ j ∈ Finset.range m, ENNReal.ofReal (d (j + 1) - d j) * A j := by
  induction m with
  | zero => simp
  | succ m ih =>
      have hunion : Set.Ico (d 0) (d (m + 1)) = Set.Ico (d 0) (d m) ∪ Set.Ico (d m) (d (m + 1)) :=
        (Set.Ico_union_Ico_eq_Ico (hd (Nat.zero_le m)) (hd (Nat.le_succ m))).symm
      have hdisjoint : Disjoint (Set.Ico (d 0) (d m)) (Set.Ico (d m) (d (m + 1))) := by
        rw [Set.Ico_disjoint_Ico]
        exact (min_le_left _ _).trans (le_max_right _ _)
      have hlast : ∫⁻ x in Set.Ico (d m) (d (m + 1)), F x = ENNReal.ofReal (d (m + 1) - d m) * A m := by
        rw [setLIntegral_congr_fun measurableSet_Ico fun x hx => h m (Nat.lt_succ_self m) x hx.1 hx.2,
          setLIntegral_const, Real.volume_Ico, mul_comm]
      rw [hunion, lintegral_union measurableSet_Ico hdisjoint, ih fun j hj => h j (by omega), hlast,
        Finset.sum_range_succ]

/-- Inverse transform sampling: a uniform draw scaled by `S` falls between consecutive breakpoints `c j` and
`c (j + 1)` with probability `(c (j + 1) - c j) / S`. -/
theorem lintegral_scaled_steps {c : Nat → ℝ} (hc : Monotone c) {m : Nat} {S : ℝ} (hS : 0 < S) (hzero : c 0 = 0)
    (hend : c m = S) (F : ℝ → ℝ≥0∞) (A : Nat → ℝ≥0∞) (h : ∀ j < m, ∀ r, c j ≤ r → r < c (j + 1) → F r = A j) :
    ∫⁻ u in Set.Ico (0 : ℝ) 1, F (u * S) =
      ∑ j ∈ Finset.range m, ENNReal.ofReal ((c (j + 1) - c j) / S) * A j := by
  have hd : Monotone fun j => c j / S := fun i j hij => div_le_div_of_nonneg_right (hc hij) hS.le
  have hsteps := lintegral_steps hd (fun u => F (u * S)) A m fun j hj u hlo hhi =>
    h j hj (u * S) ((div_le_iff₀ hS).mp hlo) ((lt_div_iff₀ hS).mp hhi)
  have hfirst : c 0 / S = 0 := by rw [hzero, zero_div]
  have hlast : c m / S = 1 := by rw [hend, div_self hS.ne']
  rw [hfirst, hlast] at hsteps
  rw [hsteps]
  refine Finset.sum_congr rfl fun j _ => ?_
  rw [sub_div]

theorem lintegral_coin {p : ℝ} (hp : 0 ≤ p) (hp1 : p ≤ 1) (A B : ℝ≥0∞) :
    ∫⁻ c in Set.Ico (0 : ℝ) 1, (if c < p then A else B) =
      ENNReal.ofReal p * A + ENNReal.ofReal (1 - p) * B := by
  have hunion : Set.Ico (0 : ℝ) 1 = Set.Ico 0 p ∪ Set.Ico p 1 := (Set.Ico_union_Ico_eq_Ico hp hp1).symm
  have hdisjoint : Disjoint (Set.Ico 0 p) (Set.Ico p 1) := by
    rw [Set.Ico_disjoint_Ico]
    exact (min_le_left _ _).trans (le_max_right _ _)
  have hheads : ∫⁻ c in Set.Ico (0 : ℝ) p, (if c < p then A else B) = ENNReal.ofReal p * A := by
    rw [setLIntegral_congr_fun measurableSet_Ico fun c hc => if_pos hc.2, setLIntegral_const, Real.volume_Ico, sub_zero,
      mul_comm]
  have htails : ∫⁻ c in Set.Ico p 1, (if c < p then A else B) = ENNReal.ofReal (1 - p) * B := by
    rw [setLIntegral_congr_fun measurableSet_Ico fun c hc => if_neg (not_lt.mpr hc.1), setLIntegral_const,
      Real.volume_Ico, mul_comm]
  rw [hunion, lintegral_union measurableSet_Ico hdisjoint, hheads, htails]

end Tea
