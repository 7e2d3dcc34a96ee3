import Tea.Lib.Layout
/-!
# Parallel loops with thread-local state

A parallel loop runs each iteration once, on some thread; a thread keeps a local state (a scratch buffer)
from one of its iterations to the next. Iterations that run at the same time touch different cells of the
shared state, so an execution is a list of whole iterations in some order.

If what an iteration does to some part of the shared state is independent of the local state it finds, the loop
is a fold over its iterations on that part, in the order of the execution (`parallelFor_proj`). Iterations that
fill the blocks of an arena leave the concatenation of the blocks (`parallelFor_blocks`).
-/

namespace Tea

/-- Which thread runs which iteration of a loop over `0..n-1`, in the order of execution. -/
structure ForSchedule (n : Nat) where
  steps : List (Nat × Nat)
  perm : (steps.map Prod.snd).Perm (List.range n)

namespace ForSchedule

/-- The iterations in the order of execution. -/
def order {n : Nat} (σ : ForSchedule n) : List Nat := σ.steps.map Prod.snd

theorem order_perm {n : Nat} (σ : ForSchedule n) : σ.order.Perm (List.range n) := σ.perm

theorem lt_of_mem {n : Nat} (σ : ForSchedule n) {i : Nat} (h : i ∈ σ.order) : i < n :=
  List.mem_range.mp (σ.perm.mem_iff.mp h)

/-- One thread runs the iterations in order. -/
def serial (n : Nat) : ForSchedule n where
  steps := (List.range n).map fun i => (0, i)
  perm := by simp [List.map_map, Function.comp_def]

end ForSchedule

variable {L S : Type}

/-- Run the iterations: `body i` takes the local state of its thread and the shared state. -/
def parallelFor (body : Nat → L → S → L × S) : List (Nat × Nat) → (Nat → L) → S → S
  | [], _, shared => shared
  | (thread, i) :: steps, locals, shared =>
      let (l, shared) := body i (locals thread) shared
      parallelFor body steps (fun k => if k = thread then l else locals k) shared

theorem parallelFor_inv (body : Nat → L → S → L × S) (Inv : S → Prop) {n : Nat}
    (hinv : ∀ i l s, i < n → Inv s → Inv (body i l s).2) (σ : ForSchedule n) (locals : Nat → L) (shared : S)
    (h : Inv shared) : Inv (parallelFor body σ.steps locals shared) := by
  have hlt : ∀ i ∈ σ.steps.map Prod.snd, i < n := fun i hi => σ.lt_of_mem hi
  generalize σ.steps = steps at hlt
  induction steps generalizing locals shared with
  | nil => exact h
  | cons x steps ih =>
      obtain ⟨thread, i⟩ := x
      exact ih _ _ (hinv i _ _ (hlt i (by simp)) h) fun j hj => hlt j (List.mem_cons_of_mem _ hj)

/-- If every iteration changes the part `proj` of the shared state in a way that is independent of the local
state, the loop changes it like the iterations one after another. -/
theorem parallelFor_proj {T : Type} (body : Nat → L → S → L × S) (proj : S → T) (step : T → Nat → T)
    (Inv : S → Prop) {n : Nat} (hstep : ∀ i l s, i < n → Inv s → proj (body i l s).2 = step (proj s) i)
    (hinv : ∀ i l s, i < n → Inv s → Inv (body i l s).2) (σ : ForSchedule n) (locals : Nat → L) (shared : S)
    (h : Inv shared) : proj (parallelFor body σ.steps locals shared) = σ.order.foldl step (proj shared) := by
  have hlt : ∀ i ∈ σ.steps.map Prod.snd, i < n := fun i hi => σ.lt_of_mem hi
  rw [ForSchedule.order]
  generalize σ.steps = steps at hlt
  induction steps generalizing locals shared with
  | nil => rfl
  | cons x steps ih =>
      obtain ⟨thread, i⟩ := x
      have hi : i < n := hlt i (by simp)
      rw [parallelFor, List.map_cons, List.foldl_cons, ← hstep i (locals thread) shared hi h]
      exact ih _ _ (hinv i (locals thread) shared hi h) fun j hj => hlt j (List.mem_cons_of_mem _ hj)

open Layout in
/-- If every iteration splices its block into an arena at the block's offset, the loop leaves the concatenation
of the blocks. -/
theorem parallelFor_blocks {α : Type} (body : Nat → L → S → L × S) (arena : S → List α) {n : Nat}
    (block : Nat → List α) (Inv : S → Prop)
    (hstep : ∀ i l s, i < n → Inv s →
      arena (body i l s).2 = splice (arena s) (start ((List.range n).map block) i) (block i))
    (hinv : ∀ i l s, i < n → Inv s → Inv (body i l s).2) (σ : ForSchedule n) (locals : Nat → L) (shared : S)
    (h : Inv shared) (hlen : (arena shared).length = ((List.range n).map block).flatten.length) :
    arena (parallelFor body σ.steps locals shared) = ((List.range n).map block).flatten := by
  rw [parallelFor_proj body arena
    (fun cells i => splice cells (start ((List.range n).map block) i) (((List.range n).map block).getD i [])) Inv
    (fun i l s hi hs => by rw [hstep i l s hi hs]; simp [List.getD_eq_getElem?_getD, hi]) hinv σ locals shared h]
  exact foldl_splice_eq _ _ (by simpa using σ.order_perm) _ hlen

end Tea
