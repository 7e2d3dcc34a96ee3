import Mathlib.Algebra.BigOperators.Group.Finset.Piecewise
import Mathlib.Algebra.Order.BigOperators.Group.Finset
import Mathlib.Data.List.Nodup
/-!
# The ranks of a value in a list

The rank of a position is one more than the position. `rankMass xs x` adds up the ranks at which `x` stands in `xs`; it
depends on the order of the list, and not only on its elements: exchanging two different elements changes their masses
(`rankMass_exchange_ne`).
-/

namespace Tea

open Finset

variable {α β : Type} [DecidableEq α] [DecidableEq β]

/-- The sum of the ranks at which `x` stands. -/
def rankMass (xs : List α) (x : α) : Nat := ∑ i ∈ range xs.length, if xs[i]? = some x then i + 1 else 0

theorem rankMass_of_nodup {xs : List α} (hnodup : xs.Nodup) {i : Nat} (hi : i < xs.length) :
    rankMass xs xs[i] = i + 1 := by
  unfold rankMass
  rw [sum_eq_single i]
  · rw [if_pos (List.getElem?_eq_getElem hi)]
  · intro j hj hne
    apply if_neg
    rw [List.getElem?_eq_getElem (mem_range.mp hj), Option.some.injEq]
    exact fun heq => hne ((hnodup.getElem_inj_iff).mp heq)
  · exact fun hnot => absurd (mem_range.mpr hi) hnot

theorem rankMass_ne_of_nodup {xs : List α} (hnodup : xs.Nodup) {x y : α} (hx : x ∈ xs) (hy : y ∈ xs) (hne : x ≠ y) :
    rankMass xs x ≠ rankMass xs y := by
  obtain ⟨i, hi, rfl⟩ := List.mem_iff_getElem.mp hx
  obtain ⟨j, hj, rfl⟩ := List.mem_iff_getElem.mp hy
  rw [rankMass_of_nodup hnodup hi, rankMass_of_nodup hnodup hj]
  intro h
  obtain rfl : i = j := by omega
  exact hne rfl

omit [DecidableEq β] in
theorem rankMass_map (f : β → α) (xs : List β) (a : α) :
    rankMass (xs.map f) a = ∑ i ∈ range xs.length, if xs[i]?.map f = some a then i + 1 else 0 := by
  unfold rankMass
  rw [List.length_map]
  simp only [List.getElem?_map]

/-- Reading the positions `xs` from two sources that differ by an exchange: `a` is at `i` in the first and at `j` in the
second, and everywhere else both or none have it. -/
theorem rankMass_exchange_ne {f f' : β → α} {xs : List β} (hnodup : xs.Nodup) {i j : β} (hi : i ∈ xs) (hj : j ∈ xs)
    (hne : i ≠ j) {a : α} (hfi : f i = a) (hfj : f j ≠ a) (hfi' : f' i ≠ a) (hfj' : f' j = a)
    (hother : ∀ k ∈ xs, k ≠ i → k ≠ j → (f k = a ↔ f' k = a)) : rankMass (xs.map f) a ≠ rankMass (xs.map f') a := by
  have hbalance : rankMass (xs.map f) a + rankMass xs j = rankMass (xs.map f') a + rankMass xs i := by
    rw [rankMass_map, rankMass_map, rankMass, rankMass, ← sum_add_distrib, ← sum_add_distrib]
    refine sum_congr rfl fun p hp => ?_
    have hlt := mem_range.mp hp
    have hmem := List.getElem_mem hlt
    rw [List.getElem?_eq_getElem hlt]
    simp only [Option.map_some, Option.some.injEq]
    generalize xs[p] = k at hmem
    by_cases hki : k = i
    · subst hki
      simp [hfi, hfi', hne]
    · by_cases hkj : k = j
      · subst hkj
        simp [hfj, hfj', hki]
      · simp [hki, hkj, hother k hmem hki hkj]
  intro heq
  rw [heq] at hbalance
  exact rankMass_ne_of_nodup hnodup hi hj hne (Nat.add_left_cancel hbalance).symm

end Tea
