import Mathlib.Control.Monad.Basic
import Mathlib.Logic.Basic
/-!
# Programs that draw random numbers

A `Draw R α` is a program that asks a generator for numbers and returns an `α`. It makes three kinds of
requests: a double-precision number and a single-precision number of the unit interval, and an index below
a bound. Such a program is a tree, so what it does is independent of where the numbers come from:

* `run` feeds it from a generator, threading the generator's state;
* `All` says that every admissible sequence of answers leads to a result with a given property.

Two programs that are equal as trees return the same result from every generator and leave it in the same
state.
-/

namespace Tea

/-- A program that draws random numbers. -/
inductive Draw (R α : Type) where
  | ret (a : α)
  | u01 (next : R → Draw R α)
  | f01 (next : R → Draw R α)
  | index (n : Nat) (next : Nat → Draw R α)

namespace Draw

variable {R α β γ : Type}

/-- Continue with `f` at every leaf. -/
def andThen (d : Draw R α) (f : α → Draw R β) : Draw R β :=
  match d with
  | ret a => f a
  | u01 next => u01 fun u => (next u).andThen f
  | f01 next => f01 fun c => (next c).andThen f
  | index n next => index n fun i => (next i).andThen f

instance : Monad (Draw R) where
  pure := ret
  bind := andThen

/-- Draw a double of the unit interval. -/
def nextU01 : Draw R R := u01 ret

/-- Draw a float of the unit interval. -/
def nextF01 : Draw R R := f01 ret

/-- Draw an index below `n`. -/
def nextBelow (n : Nat) : Draw R Nat := index n ret

@[simp] theorem ret_eq_pure (a : α) : (ret a : Draw R α) = pure a := rfl

@[simp] theorem nextU01_bind (f : R → Draw R α) : (nextU01 >>= f) = u01 f := rfl

@[simp] theorem nextF01_bind (f : R → Draw R α) : (nextF01 >>= f) = f01 f := rfl

@[simp] theorem nextBelow_bind (n : Nat) (f : Nat → Draw R α) : (nextBelow n >>= f) = index n f := rfl

@[simp] theorem u01_bind (next : R → Draw R α) (f : α → Draw R β) :
    (u01 next >>= f) = u01 fun u => next u >>= f := rfl

@[simp] theorem f01_bind (next : R → Draw R α) (f : α → Draw R β) :
    (f01 next >>= f) = f01 fun c => next c >>= f := rfl

@[simp] theorem index_bind (n : Nat) (next : Nat → Draw R α) (f : α → Draw R β) :
    (index n next >>= f) = index n fun i => next i >>= f := rfl

theorem bind_pure' (d : Draw R α) : d >>= pure = d := by
  induction d with
  | ret a => rfl
  | u01 next ih => exact congrArg u01 (funext ih)
  | f01 next ih => exact congrArg f01 (funext ih)
  | index n next ih => exact congrArg (index n) (funext ih)

theorem bind_assoc' (d : Draw R α) (f : α → Draw R β) (g : β → Draw R γ) :
    d >>= f >>= g = d >>= fun a => f a >>= g := by
  induction d with
  | ret a => rfl
  | u01 next ih => exact congrArg u01 (funext ih)
  | f01 next ih => exact congrArg f01 (funext ih)
  | index n next ih => exact congrArg (index n) (funext ih)

instance : LawfulMonad (Draw R) :=
  LawfulMonad.mk' _ bind_pure' (fun _ _ => rfl) bind_assoc'

/-! ### Running a program from a generator -/

end Draw

/-- A source of random numbers with states in `σ`. -/
structure Generator (R σ : Type) where
  nextU01 : σ → R × σ
  nextF01 : σ → R × σ
  nextBelow : σ → Nat → Nat × σ

/-- The generator answers within the bounds it is asked for, and its doubles satisfy `U`. -/
structure Generator.Admissible {R σ : Type} (g : Generator R σ) (U : R → Prop) : Prop where
  u01 : ∀ s, U (g.nextU01 s).1
  below : ∀ s n, 0 < n → (g.nextBelow s n).1 < n

namespace Draw

variable {R σ α β : Type}

/-- The result of the program and the generator state it leaves. -/
def run (g : Generator R σ) : Draw R α → σ → α × σ
  | ret a, s => (a, s)
  | u01 next, s => (next (g.nextU01 s).1).run g (g.nextU01 s).2
  | f01 next, s => (next (g.nextF01 s).1).run g (g.nextF01 s).2
  | index n next, s => (next (g.nextBelow s n).1).run g (g.nextBelow s n).2

@[simp] theorem run_pure (g : Generator R σ) (a : α) (s : σ) : (pure a : Draw R α).run g s = (a, s) := rfl

theorem run_bind (g : Generator R σ) (d : Draw R α) (f : α → Draw R β) (s : σ) :
    (d >>= f).run g s = (f (d.run g s).1).run g (d.run g s).2 := by
  induction d generalizing s with
  | ret a => rfl
  | u01 next ih => exact ih _ _
  | f01 next ih => exact ih _ _
  | index n next ih => exact ih _ _

theorem run_map (g : Generator R σ) (d : Draw R α) (f : α → β) (s : σ) :
    (f <$> d).run g s = (f (d.run g s).1, (d.run g s).2) := by
  rw [map_eq_pure_bind, run_bind]
  rfl

/-! ### Properties of every result -/

/-- Every admissible sequence of answers leads to a result that satisfies `P`: the doubles satisfy `U`,
the indices are below their bounds. -/
def All (U : R → Prop) (P : α → Prop) : Draw R α → Prop
  | ret a => P a
  | u01 next => ∀ u, U u → (next u).All U P
  | f01 next => ∀ c, (next c).All U P
  | index n next => ∀ i, (0 < n → i < n) → (next i).All U P

variable {U : R → Prop} {P Q : α → Prop}

@[simp] theorem all_pure (a : α) : (pure a : Draw R α).All U P ↔ P a := Iff.rfl

@[simp] theorem all_u01 (next : R → Draw R α) : (u01 next).All U P ↔ ∀ u, U u → (next u).All U P := Iff.rfl

@[simp] theorem all_f01 (next : R → Draw R α) : (f01 next).All U P ↔ ∀ c, (next c).All U P := Iff.rfl

@[simp] theorem all_index (n : Nat) (next : Nat → Draw R α) :
    (index n next).All U P ↔ ∀ i, (0 < n → i < n) → (next i).All U P := Iff.rfl

theorem All.mono {d : Draw R α} (h : d.All U P) (hPQ : ∀ a, P a → Q a) : d.All U Q := by
  induction d with
  | ret a => exact hPQ a h
  | u01 next ih => exact fun u hu => ih u (h u hu)
  | f01 next ih => exact fun c => ih c (h c)
  | index n next ih => exact fun i hi => ih i (h i hi)

theorem All.and {d : Draw R α} (h : d.All U P) (h' : d.All U Q) : d.All U fun a => P a ∧ Q a := by
  induction d with
  | ret a => exact ⟨h, h'⟩
  | u01 next ih => exact fun u hu => ih u (h u hu) (h' u hu)
  | f01 next ih => exact fun c => ih c (h c) (h' c)
  | index n next ih => exact fun i hi => ih i (h i hi) (h' i hi)

theorem All.bind {d : Draw R α} {f : α → Draw R β} {Q : β → Prop} (h : d.All U P)
    (hf : ∀ a, P a → (f a).All U Q) : (d >>= f).All U Q := by
  induction d with
  | ret a => exact hf a h
  | u01 next ih => exact fun u hu => ih u (h u hu)
  | f01 next ih => exact fun c => ih c (h c)
  | index n next ih => exact fun i hi => ih i (h i hi)

theorem all_map {d : Draw R α} {f : α → β} {Q : β → Prop} :
    (f <$> d).All U Q ↔ d.All U fun a => Q (f a) := by
  induction d with
  | ret a => exact Iff.rfl
  | u01 next ih => exact forall_congr' fun u => imp_congr_right fun _ => ih u
  | f01 next ih => exact forall_congr' ih
  | index n next ih => exact forall_congr' fun i => imp_congr_right fun _ => ih i

theorem All.run {g : Generator R σ} (hg : g.Admissible U) {d : Draw R α} (h : d.All U P) (s : σ) :
    P (d.run g s).1 := by
  induction d generalizing s with
  | ret a => exact h
  | u01 next ih => exact ih _ (h _ (hg.u01 s)) _
  | f01 next ih => exact ih _ (h _) _
  | index n next ih => exact ih _ (h _ fun hn => hg.below s n hn) _

/-! ### Programs that carry a scratch state -/

/-- If the rest of the program shows the same whatever scratch it starts with, only the visible part of the
first program matters. -/
theorem fst_bind {S : Type} (d : Draw R (α × S)) (f : α × S → Draw R (β × S)) (g : α → Draw R β)
    (hf : ∀ a s, Prod.fst <$> f (a, s) = g a) : Prod.fst <$> (d >>= f) = (Prod.fst <$> d) >>= g := by
  rw [map_bind, bind_map_left]
  exact bind_congr fun x => hf x.1 x.2

end Draw

end Tea
