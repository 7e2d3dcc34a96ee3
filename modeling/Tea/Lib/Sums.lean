import Tea.Lib.Layout
import Mathlib.Algebra.BigOperators.Group.Finset.Basic
/-!
# Sums over lists and over index ranges

Lists are summed by position, and a range of positions is cut into blocks.
-/

namespace Tea

open Layout

variable {M : Type} [AddCommMonoid M]

theorem sum_map_range (f : Nat → M) (n : Nat) : ((List.range n).map f).sum = ∑ i ∈ Finset.range n, f i := by
  induction n with
  | zero => simp
  | succ n ih => simp [List.range_succ, Finset.sum_range_succ, ih]

theorem sum_range_getD (xs : List M) : ∑ i ∈ Finset.range xs.length, xs.getD i 0 = xs.sum := by
  induction xs with
  | nil => simp
  | cons x xs ih => rw [List.length_cons, Finset.sum_range_succ', List.sum_cons, ← ih, add_comm]; rfl

theorem sum_range_getD_map {α : Type} (xs : List α) (d : α) (F : α → M) :
    ∑ i ∈ Finset.range xs.length, F (xs.getD i d) = (xs.map F).sum := by
  induction xs with
  | nil => simp
  | cons x xs ih => rw [List.length_cons, Finset.sum_range_succ', List.map_cons, List.sum_cons, ← ih, add_comm]; rfl

theorem sum_slice (xs : List M) {off len : Nat} (h : off + len ≤ xs.length) :
    (slice xs off len).sum = ∑ i ∈ Finset.range len, xs.getD (off + i) 0 := by
  rw [← sum_range_getD, length_slice h]
  refine Finset.sum_congr rfl fun i hi => ?_
  rw [List.getD_eq_getElem?_getD, getElem?_slice, if_pos (Finset.mem_range.mp hi), List.getD_eq_getElem?_getD]

theorem sum_range_blocks (f : Nat → M) (m size : Nat) :
    ∑ i ∈ Finset.range (m * size), f i =
      ∑ j ∈ Finset.range m, ∑ l ∈ Finset.range size, f (j * size + l) := by
  induction m with
  | zero => simp
  | succ m ih => rw [Nat.succ_mul, Finset.sum_range_add, ih, Finset.sum_range_succ]

end Tea
