import Mathlib.Algebra.BigOperators.Field
import Mathlib.Algebra.Order.BigOperators.Ring.Finset
import Mathlib.Algebra.Order.Floor.Div
import Mathlib.Algebra.Order.Floor.Semiring
import Mathlib.Order.Interval.Finset.Nat
import Mathlib.Tactic.FieldSimp
import Mathlib.Tactic.Linarith
import Mathlib.Tactic.Positivity
import Mathlib.Tactic.Ring
/-!
# Counting on a finite uniform source

`mean N f` is the mean of `f` over the numbers below `N`. A finite source is turned into an index by multiply and shift,
`x * n / N`, and into a coin by comparing its high part with a threshold:

* every index below `n` has `⌊N / n⌋` or `⌈N / n⌉` of the `N` preimages (`card_mulShift`);
* of a coin with `N` sides, `⌈p * N⌉` lie below a threshold `p` of the unit interval (`card_coin`).
-/

namespace Tea.Counting

open Finset

/-! ### Multiply and shift -/

section mulShift

variable {N n b : Nat}

theorem filter_mulShift (hN : 0 < N) (hn : 0 < n) (hb : b < n) : (range N).filter (fun x => x * n / N = b) =
    Ico (b * N ⌈/⌉ n) ((b + 1) * N ⌈/⌉ n) := by
  ext x
  have hlo : b * N ⌈/⌉ n ≤ x ↔ b * N ≤ x * n := by rw [ceilDiv_le_iff_le_mul hn, Nat.mul_comm n]
  have hhi : x < (b + 1) * N ⌈/⌉ n ↔ x * n < (b + 1) * N := by
    rw [← not_le, ceilDiv_le_iff_le_mul hn, Nat.mul_comm n, not_le]
  have hdiv : x * n / N = b ↔ b * N ≤ x * n ∧ x * n < (b + 1) * N := by
    rw [← Nat.le_div_iff_mul_le hN, ← Nat.div_lt_iff_lt_mul hN]
    omega
  rw [mem_filter, mem_range, mem_Ico, hlo, hhi, hdiv]
  refine and_iff_right_of_imp fun h => ?_
  have hlast : (b + 1) * N ≤ n * N := Nat.mul_le_mul_right N hb
  exact Nat.lt_of_mul_lt_mul_left (a := n) (by rw [Nat.mul_comm n x]; omega)

theorem card_mulShift_bounds (hN : 0 < N) (hn : 0 < n) (hb : b < n) :
    N / n ≤ ((range N).filter fun x => x * n / N = b).card ∧
      ((range N).filter fun x => x * n / N = b).card ≤ N ⌈/⌉ n := by
  rw [filter_mulShift hN hn hb, Nat.card_Ico]
  have hfloor : n * (N / n) ≤ N := Nat.mul_div_le N n
  have hceil : N ≤ n * (N ⌈/⌉ n) := (ceilDiv_le_iff_le_mul hn).mp le_rfl
  have hlo : b * N ≤ n * (b * N ⌈/⌉ n) := (ceilDiv_le_iff_le_mul hn).mp le_rfl
  have hhi : (b + 1) * N ≤ n * ((b + 1) * N ⌈/⌉ n) := (ceilDiv_le_iff_le_mul hn).mp le_rfl
  have hsucc : (b + 1) * N = b * N + N := Nat.succ_mul b N
  constructor
  · have hle : b * N ⌈/⌉ n ≤ (b + 1) * N ⌈/⌉ n - N / n := by
      rw [ceilDiv_le_iff_le_mul hn, Nat.mul_sub]
      omega
    have hge : N / n ≤ (b + 1) * N ⌈/⌉ n := by
      refine Nat.le_of_mul_le_mul_left (?_ : n * (N / n) ≤ n * ((b + 1) * N ⌈/⌉ n)) hn
      omega
    omega
  · have hle : (b + 1) * N ⌈/⌉ n ≤ b * N ⌈/⌉ n + N ⌈/⌉ n := by
      rw [ceilDiv_le_iff_le_mul hn, Nat.mul_add]
      omega
    omega

theorem card_mulShift (hN : 0 < N) (hn : 0 < n) (hb : b < n) :
    ((range N).filter fun x => x * n / N = b).card = N / n ∨
      ((range N).filter fun x => x * n / N = b).card = N ⌈/⌉ n := by
  obtain ⟨hlo, hhi⟩ := card_mulShift_bounds hN hn hb
  have hle : N ⌈/⌉ n ≤ N / n + 1 := by
    rw [ceilDiv_le_iff_le_mul hn, Nat.mul_add, Nat.mul_one]
    exact (Nat.lt_mul_div_succ N hn).le.trans_eq (Nat.mul_succ n (N / n))
  omega

end mulShift

/-! ### Means -/

section mean

variable {K : Type} [Field K]

/-- The mean over the numbers below `N`. -/
def mean (N : Nat) (f : Nat → K) : K := (∑ x ∈ range N, f x) / N

theorem mean_index (N : Nat) {n : Nat} (index : Nat → Nat) (hindex : ∀ x < N, index x < n) (F : Nat → K) :
    mean N (fun x => F (index x)) = ∑ b ∈ range n, (((range N).filter fun x => index x = b).card : K) / N * F b := by
  have hmaps : ∀ x ∈ range N, index x ∈ range n := fun x hx => mem_range.mpr (hindex x (mem_range.mp hx))
  rw [mean, ← sum_fiberwise_of_maps_to hmaps, sum_div]
  refine sum_congr rfl fun b _ => ?_
  rw [sum_congr rfl fun x hx => by rw [(mem_filter.mp hx).2], sum_const, nsmul_eq_mul, mul_div_right_comm]

theorem mean_ite (N : Nat) (hN : (N : K) ≠ 0) (p : Nat → Prop) [DecidablePred p] (A B : K) :
    mean N (fun x => if p x then A else B) =
      (((range N).filter p).card : K) / N * A + (1 - (((range N).filter p).card : K) / N) * B := by
  have hcount : (((range N).filter fun x => ¬ p x).card : K) = N - ((range N).filter p).card := by
    have h := card_filter_add_card_filter_not (s := range N) p
    rw [card_range] at h
    rw [eq_sub_iff_add_eq, add_comm, ← Nat.cast_add]
    exact congrArg (Nat.cast (R := K)) h
  rw [mean, sum_ite, sum_const, sum_const, nsmul_eq_mul, nsmul_eq_mul, hcount]
  field_simp

end mean

/-! ### Coins -/

section coin

variable {K : Type} [Field K] [LinearOrder K] [IsStrictOrderedRing K] [FloorSemiring K] {N m : Nat} {p : K}

theorem card_coin (hN : 0 < N) (hm : 0 < m) (hp1 : p ≤ 1) :
    ((range (N * m)).filter fun x : Nat => ((x / m : Nat) : K) / N < p).card = ⌈p * N⌉₊ * m := by
  have hNK : (0 : K) < N := by exact_mod_cast hN
  have hle : ⌈p * N⌉₊ ≤ N := Nat.ceil_le.mpr (mul_le_of_le_one_left hNK.le hp1)
  have hset : ((range (N * m)).filter fun x : Nat => ((x / m : Nat) : K) / N < p) = range (⌈p * N⌉₊ * m) := by
    ext x
    rw [mem_filter, mem_range, mem_range, div_lt_iff₀ hNK, ← Nat.lt_ceil, Nat.div_lt_iff_lt_mul hm]
    exact and_iff_right_of_imp fun h => h.trans_le (Nat.mul_le_mul_right m hle)
  rw [hset, card_range]

theorem coin_bounds (hN : 0 < N) (hm : 0 < m) (hp : 0 ≤ p) (hp1 : p ≤ 1) :
    p ≤ (((range (N * m)).filter fun x : Nat => ((x / m : Nat) : K) / N < p).card : K) / ((N * m : Nat) : K) ∧
      (((range (N * m)).filter fun x : Nat => ((x / m : Nat) : K) / N < p).card : K) / ((N * m : Nat) : K) ≤
        p + 1 / N := by
  have hNK : (0 : K) < N := by exact_mod_cast hN
  have hmK : (m : K) ≠ 0 := by exact_mod_cast hm.ne'
  rw [card_coin hN hm hp1, Nat.cast_mul, Nat.cast_mul, mul_div_mul_right _ _ hmK, le_div_iff₀ hNK, div_le_iff₀ hNK,
    add_mul, one_div_mul_cancel hNK.ne']
  exact ⟨Nat.le_ceil _, (Nat.ceil_lt_add_one (mul_nonneg hp hNK.le)).le⟩

end coin

end Tea.Counting
