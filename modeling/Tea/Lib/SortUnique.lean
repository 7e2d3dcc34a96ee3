import Mathlib.Data.List.Sort
import Mathlib.Data.Set.Card
/-!
# Sort and unique

`sortUnique` is `std::sort` followed by `std::unique`: the members of a list in strictly ascending order. A strictly
ascending list is determined by its members, so `sortUnique` forgets everything else about its argument
(`sortUnique_congr`).
-/

namespace Tea

variable {α : Type} [LinearOrder α]

/-- The members of `xs`, ascending and without duplicates. -/
def sortUnique (xs : List α) : List α := (xs.mergeSort fun a b => decide (a ≤ b)).eraseReps

theorem mem_eraseReps_loop (a : α) (xs acc : List α) (x : α) :
    x ∈ List.eraseRepsBy.loop (· == ·) a xs acc ↔ x ∈ acc ∨ x = a ∨ x ∈ xs := by
  induction xs generalizing a acc with
  | nil => simp [List.eraseRepsBy.loop, or_comm]
  | cons b xs ih =>
      rw [List.eraseRepsBy.loop]
      split
      · rename_i heq
        obtain rfl : a = b := eq_of_beq heq
        rw [ih, List.mem_cons]
        tauto
      · rw [ih, List.mem_cons, List.mem_cons]
        tauto

theorem pairwise_eraseReps_loop {a : α} {xs acc : List α} (hsorted : (a :: xs).Pairwise (· ≤ ·))
    (hacc : (acc.reverse ++ [a]).Pairwise (· < ·)) :
    (List.eraseRepsBy.loop (· == ·) a xs acc).Pairwise (· < ·) := by
  induction xs generalizing a acc with
  | nil => simpa [List.eraseRepsBy.loop] using hacc
  | cons b xs ih =>
      obtain ⟨ha, hxs⟩ := List.pairwise_cons.mp hsorted
      rw [List.eraseRepsBy.loop]
      split
      · rename_i heq
        obtain rfl : a = b := eq_of_beq heq
        exact ih hxs hacc
      · rename_i hne
        have hab : a < b := lt_of_le_of_ne (ha b (by simp)) (by simpa using hne)
        refine ih hxs ?_
        rw [List.reverse_cons]
        refine List.pairwise_append.mpr ⟨hacc, List.pairwise_singleton _ _, fun c hc d hd => ?_⟩
        obtain rfl := List.mem_singleton.mp hd
        rcases List.mem_append.mp hc with hc | hc
        · exact ((List.pairwise_append.mp hacc).2.2 c hc a (by simp)).trans hab
        · obtain rfl := List.mem_singleton.mp hc
          exact hab

theorem pairwise_mergeSort_le (xs : List α) : (xs.mergeSort fun a b => decide (a ≤ b)).Pairwise (· ≤ ·) := by
  have hpair : (xs.mergeSort fun a b => decide (a ≤ b)).Pairwise fun a b => decide (a ≤ b) = true := by
    refine List.pairwise_mergeSort (fun a b c hab hbc => ?_) (fun a b => ?_) xs
    · rw [decide_eq_true_eq] at *
      exact hab.trans hbc
    · simpa using le_total a b
  exact hpair.imp fun hab => by simpa using hab

@[simp] theorem mem_sortUnique {xs : List α} {x : α} : x ∈ sortUnique xs ↔ x ∈ xs := by
  rw [← (List.mergeSort_perm xs fun a b => decide (a ≤ b)).mem_iff, sortUnique, List.eraseReps, List.eraseRepsBy.eq_def]
  split
  · rename_i h
    simp [h]
  · rename_i a ys h
    rw [h, mem_eraseReps_loop, List.mem_cons]
    simp

theorem pairwise_sortUnique (xs : List α) : (sortUnique xs).Pairwise (· < ·) := by
  have hsorted := pairwise_mergeSort_le xs
  rw [sortUnique, List.eraseReps, List.eraseRepsBy.eq_def]
  split
  · exact List.Pairwise.nil
  · rename_i a ys h
    rw [h] at hsorted
    exact pairwise_eraseReps_loop hsorted (List.pairwise_singleton _ _)

theorem sortUnique_congr {xs ys : List α} (h : ∀ x, x ∈ xs ↔ x ∈ ys) : sortUnique xs = sortUnique ys :=
  (pairwise_sortUnique xs).eq_of_mem_iff (pairwise_sortUnique ys) fun x => by rw [mem_sortUnique, mem_sortUnique, h]

theorem length_sortUnique_le (xs : List α) : (sortUnique xs).length ≤ xs.length :=
  (List.subperm_of_subset ((pairwise_sortUnique xs).imp ne_of_lt) fun _ hx => mem_sortUnique.mp hx).length_le

theorem length_sortUnique (xs : List α) : (sortUnique xs).length = Set.ncard {x | x ∈ xs} := by
  have hset : {x | x ∈ xs} = ((sortUnique xs).toFinset : Set α) := by
    ext x
    simp
  rw [hset, Set.ncard_coe_finset, List.toFinset_card_of_nodup]
  exact (pairwise_sortUnique xs).imp fun hlt => hlt.ne

end Tea
