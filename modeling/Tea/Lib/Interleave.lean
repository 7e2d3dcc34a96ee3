import Mathlib.Data.List.Perm.Basic
import Mathlib.Data.List.Flatten
/-!
# Interleavings of thread programs

A parallel loop gives every thread a list of operations, executed in that order; the operations of different
threads interleave freely. `Interleaves programs order` says that `order` is such an interleaving, and
`staticPrograms` lists the programs of an OpenMP loop under `schedule(static, chunk)`.

* An interleaving is a permutation of all operations (`Interleaves.perm`), and selecting operations selects
  an interleaving (`Interleaves.filter`): an operation class that only one thread performs keeps that
  thread's order (`Interleaves.eq_of_single`).
* Two operations of different threads can be performed next to each other in either order
  (`Interleaves.exists_swap`).
-/

namespace Tea

variable {α β : Type}

/-- `order` performs every program's operations, each program in its own order. -/
inductive Interleaves : List (List α) → List α → Prop
  | done {programs : List (List α)} (h : ∀ p ∈ programs, p = []) : Interleaves programs []
  | pick {before after : List (List α)} {p : List α} {order : List α} (x : α)
      (h : Interleaves (before ++ p :: after) order) :
      Interleaves (before ++ (x :: p) :: after) (x :: order)

namespace Interleaves

theorem perm {programs : List (List α)} {order : List α} (h : Interleaves programs order) :
    order.Perm programs.flatten := by
  induction h with
  | done h => rw [List.flatten_eq_nil_iff.mpr h]
  | pick x _ ih =>
      simp only [List.flatten_append, List.flatten_cons, List.cons_append] at ih ⊢
      exact (ih.cons x).trans List.perm_middle.symm

theorem filter (q : α → Bool) {programs : List (List α)} {order : List α}
    (h : Interleaves programs order) : Interleaves (programs.map (List.filter q)) (order.filter q) := by
  induction h with
  | done h =>
      refine done fun p hp => ?_
      obtain ⟨p', hp', rfl⟩ := List.mem_map.mp hp
      rw [h p' hp', List.filter_nil]
  | pick x _ ih =>
      rw [List.map_append, List.map_cons] at ih ⊢
      by_cases hx : q x
      · rw [List.filter_cons_of_pos hx, List.filter_cons_of_pos hx]
        exact pick x ih
      · rw [List.filter_cons_of_neg hx, List.filter_cons_of_neg hx]
        exact ih

theorem eq_of_single {before after : List (List α)} {p order : List α}
    (hempty : ∀ l ∈ before ++ after, l = []) (h : Interleaves (before ++ p :: after) order) :
    order = p := by
  generalize hprograms : before ++ p :: after = programs at h
  induction h generalizing before p after with
  | done h => exact (h p (by rw [← hprograms]; simp)).symm
  | @pick before' after' p' order x _ ih =>
      have hx : ∀ l ∈ before ++ after, x :: p' ≠ l := fun l hl he => by
        have := hempty l hl
        rw [← he] at this
        exact List.cons_ne_nil x p' this
      -- the program that is picked from is not empty, so it is `p`
      obtain ⟨hb, hp, ha⟩ : before = before' ∧ p = x :: p' ∧ after = after' := by
        rcases List.append_eq_append_iff.mp hprograms with ⟨c, hc, hc'⟩ | ⟨c, hc, hc'⟩
        · cases c with
          | nil => simp_all
          | cons d c =>
              rw [List.cons_append, List.cons.injEq] at hc'
              exact absurd rfl (hx (x :: p') (List.mem_append_right _ (by rw [hc'.2]; simp)))
        · cases c with
          | nil => simp_all
          | cons d c =>
              rw [List.cons_append, List.cons.injEq] at hc'
              exact absurd rfl (hx (x :: p') (List.mem_append_left _ (by rw [hc, ← hc'.1]; simp)))
      subst hb hp ha
      rw [ih hempty rfl]

theorem eq_getElem_of_single {programs : List (List α)} {order : List α} (k : Nat) (hk : k < programs.length)
    (hempty : ∀ j (hj : j < programs.length), j ≠ k → programs[j] = []) (h : Interleaves programs order) :
    order = programs[k] := by
  have hsplit : programs = programs.take k ++ programs[k] :: programs.drop (k + 1) := by
    rw [← List.drop_eq_getElem_cons hk, List.take_append_drop]
  rw [hsplit] at h
  refine eq_of_single (fun l hl => ?_) h
  rcases List.mem_append.mp hl with hl | hl
  · obtain ⟨j, hj, rfl⟩ := List.mem_iff_getElem.mp hl
    rw [List.length_take] at hj
    rw [List.getElem_take]
    exact hempty j (by omega) (by omega)
  · obtain ⟨j, hj, rfl⟩ := List.mem_iff_getElem.mp hl
    rw [List.length_drop] at hj
    rw [List.getElem_drop]
    exact hempty (k + 1 + j) (by omega) (by omega)

theorem sequential (programs : List (List α)) : Interleaves programs programs.flatten := by
  suffices h : ∀ before : List (List α), (∀ p ∈ before, p = []) →
      Interleaves (before ++ programs) programs.flatten from h [] (by simp)
  induction programs with
  | nil => exact fun before hbefore => done (by simpa using hbefore)
  | cons p programs ih =>
      intro before hbefore
      rw [List.flatten_cons]
      induction p with
      | nil =>
          have := ih (before ++ [[]]) (by simpa [or_imp, forall_and] using hbefore)
          simpa using this
      | cons x p ihp => exact pick x ihp

theorem run_ahead {before after : List (List α)} {p order : List α} (done : List α)
    (h : Interleaves (before ++ p :: after) order) :
    Interleaves (before ++ (done ++ p) :: after) (done ++ order) := by
  induction done with
  | nil => exact h
  | cons x done ih => exact pick x ih

/-- Two operations of different threads can come next to each other, in either order. -/
theorem exists_swap_split (before between after : List (List α)) (a a' b b' : List α) (x y : α) :
    ∃ pre post,
      Interleaves (before ++ (a ++ x :: a') :: (between ++ (b ++ y :: b') :: after))
        (pre ++ x :: y :: post) ∧
      Interleaves (before ++ (a ++ x :: a') :: (between ++ (b ++ y :: b') :: after))
        (pre ++ y :: x :: post) := by
  have hrest := sequential (before ++ a' :: (between ++ b' :: after))
  refine ⟨a ++ b, (before ++ a' :: (between ++ b' :: after)).flatten, ?_, ?_⟩
  all_goals
    rw [List.append_assoc]
    apply run_ahead
    -- the second program, seen with everything before it as one prefix of programs
    have hshift : ∀ p q : List α, before ++ p :: (between ++ q :: after)
        = (before ++ p :: between) ++ q :: after := by simp
    rw [hshift]
    apply run_ahead
  · rw [← hshift]
    apply pick x
    rw [hshift]
    apply pick y
    rwa [← hshift]
  · apply pick y
    rw [← hshift]
    apply pick x
    exact hrest

theorem exists_swap {programs : List (List α)} {c d : Nat} (hcd : c < d) (hd : d < programs.length) {x y : α}
    (hx : x ∈ programs[c]) (hy : y ∈ programs[d]) :
    ∃ pre post, Interleaves programs (pre ++ x :: y :: post) ∧
      Interleaves programs (pre ++ y :: x :: post) := by
  obtain ⟨a, a', ha⟩ := List.append_of_mem hx
  obtain ⟨b, b', hb⟩ := List.append_of_mem hy
  have hsplit : programs = programs.take c ++ (a ++ x :: a') ::
      ((programs.drop (c + 1)).take (d - c - 1) ++ (b ++ y :: b') :: programs.drop (d + 1)) := by
    have hdrop : programs.drop (c + 1) =
        (programs.drop (c + 1)).take (d - c - 1) ++ programs[d] :: programs.drop (d + 1) := by
      rw [← List.drop_eq_getElem_cons hd]
      conv_lhs => rw [← List.take_append_drop (d - c - 1) (programs.drop (c + 1)), List.drop_drop]
      rw [show c + 1 + (d - c - 1) = d by omega]
    rw [← ha, ← hb, ← hdrop, ← List.drop_eq_getElem_cons, List.take_append_drop]
  rw [hsplit]
  exact exists_swap_split _ _ _ a a' b b' x y

end Interleaves

/-- The threads' programs under `schedule(static, chunk)`: chunks of `chunk` iterations go to the threads in
turn, and a thread performs the operations of its iterations in increasing order. -/
def staticPrograms (threads chunk : Nat) (ops : α → List β) (xs : List α) : List (List β) :=
  (List.range threads).map fun k =>
    (xs.zipIdx.filter fun x => x.2 / chunk % threads = k).flatMap fun x => ops x.1

@[simp] theorem length_staticPrograms (threads chunk : Nat) (ops : α → List β) (xs : List α) :
    (staticPrograms threads chunk ops xs).length = threads := by
  simp [staticPrograms]

theorem mem_staticPrograms {threads chunk : Nat} {ops : α → List β} {xs : List α} {i : Nat} {x : α} {y : β}
    (hi : xs[i]? = some x) (hy : y ∈ ops x) (k : Nat) (hk : i / chunk % threads = k)
    (hlt : k < (staticPrograms threads chunk ops xs).length) :
    y ∈ (staticPrograms threads chunk ops xs)[k] := by
  simp only [staticPrograms, List.getElem_map, List.getElem_range]
  refine List.mem_flatMap.mpr ⟨(x, i), List.mem_filter.mpr ⟨?_, by simpa using hk⟩, hy⟩
  exact List.mk_mem_zipIdx_iff_getElem?.mpr hi

theorem flatMap_zipIdx (ops : α → List β) (xs : List α) :
    xs.zipIdx.flatMap (fun x => ops x.1) = xs.flatMap ops := by
  conv_rhs => rw [← List.zipIdx_map_fst 0 xs, List.flatMap_map]

/-! ### Operations of one chunk -/

section chunk

variable {threads chunk c : Nat} {ops : α → List β} {xs : List α} {q : β → Bool}
  (hchunk : ∀ i x, xs[i]? = some x → (∃ y ∈ ops x, q y) → i / chunk = c)

include hchunk

/-- If the selected operations all belong to iterations of one chunk, the thread of that chunk performs all of
them, in iteration order. -/
theorem filter_program_of_eq {k : Nat} (hk : c % threads = k) :
    ((xs.zipIdx.filter fun x => x.2 / chunk % threads = k).flatMap fun x => ops x.1).filter q =
      (xs.flatMap ops).filter q := by
  rw [← flatMap_zipIdx ops xs, List.filter_flatMap, List.filter_flatMap]
  generalize hl : xs.zipIdx = l
  have hmem : ∀ x ∈ l, (∃ y ∈ ops x.1, q y) → x.2 / chunk = c := by
    intro x hx
    rw [← hl] at hx
    exact hchunk x.2 x.1 (List.mk_mem_zipIdx_iff_getElem?.mp hx)
  clear hl
  induction l with
  | nil => rfl
  | cons x l ih =>
      rw [List.filter_cons, List.flatMap_cons]
      have ihl := ih fun z hz => hmem z (List.mem_cons_of_mem _ hz)
      split_ifs with hx
      · rw [List.flatMap_cons, ihl]
      · -- an iteration of another thread has no selected operation
        have hnone : (ops x.1).filter q = [] := by
          rw [List.filter_eq_nil_iff]
          intro y hy hqy
          rw [hmem x (List.mem_cons_self ..) ⟨y, hy, hqy⟩] at hx
          exact hx (by simpa using hk)
        rw [ihl, hnone, List.nil_append]

theorem filter_program_of_ne {k : Nat} (hk : c % threads ≠ k) :
    ((xs.zipIdx.filter fun x => x.2 / chunk % threads = k).flatMap fun x => ops x.1).filter q = [] := by
  rw [List.filter_flatMap, List.flatMap_eq_nil_iff]
  intro x hx
  obtain ⟨hx, hxk⟩ := List.mem_filter.mp hx
  rw [List.filter_eq_nil_iff]
  intro y hy hqy
  rw [hchunk x.2 x.1 (List.mk_mem_zipIdx_iff_getElem?.mp hx) ⟨y, hy, hqy⟩] at hxk
  exact hk (by simpa using hxk)

theorem Interleaves.filter_eq_of_chunk (hthreads : 0 < threads) {order : List β}
    (h : Interleaves (staticPrograms threads chunk ops xs) order) : order.filter q = (xs.flatMap ops).filter q := by
  have hlen : ((staticPrograms threads chunk ops xs).map (List.filter q)).length = threads := by simp
  have hlt : c % threads < ((staticPrograms threads chunk ops xs).map (List.filter q)).length := by
    rw [hlen]
    exact Nat.mod_lt _ hthreads
  have hothers : ∀ j (hj : j < ((staticPrograms threads chunk ops xs).map (List.filter q)).length),
      j ≠ c % threads → ((staticPrograms threads chunk ops xs).map (List.filter q))[j] = [] := by
    intro j hj hne
    simp only [staticPrograms, List.getElem_map, List.getElem_range]
    exact filter_program_of_ne hchunk hne.symm
  rw [eq_getElem_of_single _ hlt hothers (h.filter q)]
  simp only [staticPrograms, List.getElem_map, List.getElem_range]
  exact filter_program_of_eq hchunk rfl

end chunk

theorem flatMap_range_filter_perm (key : α → Nat) (xs : List α) (n : Nat) :
    ((List.range n).flatMap fun k => xs.filter fun x => key x = k).Perm
      (xs.filter fun x => key x < n) := by
  induction n with
  | zero => simp
  | succ n ih =>
      rw [List.range_succ, List.flatMap_append, List.flatMap_singleton]
      have hsplit := List.filter_append_perm (fun x => decide (key x < n))
        (xs.filter fun x => key x < n + 1)
      rw [List.filter_filter, List.filter_filter] at hsplit
      refine (ih.append_right _).trans (List.Perm.trans (List.Perm.of_eq ?_) hsplit)
      congr 1
      · refine List.filter_congr fun x _ => ?_
        rw [← Bool.decide_and, decide_eq_decide]
        omega
      · refine List.filter_congr fun x _ => ?_
        rw [← decide_not, ← Bool.decide_and, decide_eq_decide]
        omega

theorem staticPrograms_perm (threads chunk : Nat) (hthreads : 0 < threads) (ops : α → List β)
    (xs : List α) : (staticPrograms threads chunk ops xs).flatten.Perm (xs.flatMap ops) := by
  have h := flatMap_range_filter_perm (fun x : α × Nat => x.2 / chunk % threads) xs.zipIdx threads
  rw [List.filter_eq_self.mpr fun x _ => by simpa using Nat.mod_lt _ hthreads] at h
  have h' := h.flatMap_right fun x => ops x.1
  rw [flatMap_zipIdx, List.flatMap_assoc] at h'
  exact h'

end Tea
