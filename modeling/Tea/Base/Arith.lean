import Mathlib.Algebra.Order.Field.Basic
import Mathlib.Algebra.Order.Ring.Cast
/-!
# Floating-point numbers as an interface

The program computes with `double` and `float`. The model is generic in the type of these numbers: `Arith R`
names the operations the code uses and states no law about them, so a result over an arbitrary `Arith R`
holds however sums, products, casts and comparisons round. A `float` is stored as the number it denotes, so
`toFloat` (`static_cast<float>`) is a map of `R` to itself.

* `Arith.exact` is exact arithmetic: the operations of a linearly ordered field, with `toFloat` the identity.
* `PosArith` collects the few facts about signs that hold both of IEEE arithmetic and of exact arithmetic.
-/

namespace Tea

/-- The floating-point operations of the code. -/
class Arith (R : Type) extends Zero R, One R, Add R, Sub R, Mul R, Div R where
  /-- `static_cast<double>` of an integer. -/
  ofInt : Int → R
  /-- `static_cast<float>` of a double. -/
  toFloat : R → R
  lt : R → R → Bool
  le : R → R → Bool

namespace Arith

/-- Exact arithmetic of a linearly ordered field; `open Arith` brings it into scope. -/
scoped instance exact (K : Type) [Field K] [LinearOrder K] : Arith K where
  ofInt n := n
  toFloat x := x
  lt x y := decide (x < y)
  le x y := decide (x ≤ y)

variable {K : Type} [Field K] [LinearOrder K]

@[simp] theorem ofInt_exact (n : Int) : (ofInt n : K) = n := rfl

@[simp] theorem toFloat_exact (x : K) : toFloat x = x := rfl

@[simp] theorem lt_exact (x y : K) : lt x y = decide (x < y) := rfl

@[simp] theorem le_exact (x y : K) : le x y = decide (x ≤ y) := rfl

/-- The sum of a list, added up from the left starting at zero: `total += w[i]`. -/
def sum {R : Type} [Arith R] (ws : List R) : R := ws.foldl (· + ·) 0

theorem sum_exact (ws : List K) : sum ws = ws.sum := by
  rw [sum, List.sum_eq_foldl]

/-- The running sums: `running += w[i]; cumsum[i] = running`. -/
def cumsum {R : Type} [Arith R] : (running : R) → List R → List R
  | _, [] => []
  | running, w :: ws => (running + w) :: cumsum (running + w) ws

@[simp] theorem length_cumsum {R : Type} [Arith R] (running : R) (ws : List R) :
    (cumsum running ws).length = ws.length := by
  induction ws generalizing running with
  | nil => rfl
  | cons w ws ih => simp [cumsum, ih]

theorem getElem?_cumsum {R : Type} [Arith R] (running : R) (ws : List R) (i : Nat) (hi : i < ws.length) :
    (cumsum running ws)[i]? = some ((ws.take (i + 1)).foldl (· + ·) running) := by
  induction ws generalizing running i with
  | nil => simp at hi
  | cons w ws ih =>
      cases i with
      | zero => simp [cumsum]
      | succ i => simpa [cumsum] using ih (running + w) i (by simpa using hi)

theorem take_cumsum {R : Type} [Arith R] (running : R) (ws : List R) (n : Nat) :
    (cumsum running ws).take n = cumsum running (ws.take n) := by
  induction ws generalizing running n with
  | nil => simp [cumsum]
  | cons w ws ih =>
      cases n with
      | zero => rfl
      | succ n => rw [cumsum, List.take_succ_cons, ih, List.take_succ_cons, cumsum]

theorem getD_cumsum_last {R : Type} [Arith R] (ws : List R) {n : Nat} (hpos : 0 < n) (hn : n ≤ ws.length) :
    (cumsum 0 ws).getD (n - 1) 0 = sum (ws.take n) := by
  have hlast : n - 1 + 1 = n := by omega
  rw [List.getD_eq_getElem?_getD, getElem?_cumsum 0 ws (n - 1) (by omega), hlast]
  rfl

theorem cumsum_append_singleton {R : Type} [Arith R] (running : R) (ws : List R) (w : R) :
    cumsum running (ws ++ [w]) = cumsum running ws ++ [ws.foldl (· + ·) running + w] := by
  induction ws generalizing running with
  | nil => rfl
  | cons v ws ih => rw [List.cons_append, cumsum, ih, cumsum, List.cons_append, List.foldl_cons]

theorem foldl_add_exact (running : K) (ws : List K) : ws.foldl (· + ·) running = running + ws.sum := by
  induction ws generalizing running with
  | nil => simp
  | cons w ws ih => rw [List.foldl_cons, ih, List.sum_cons, add_assoc]

theorem getElem_cumsum_exact (running : K) (ws : List K) (i : Nat) (hi : i < (cumsum running ws).length) :
    (cumsum running ws)[i] = running + (ws.take (i + 1)).sum := by
  have h := getElem?_cumsum running ws i (by simpa using hi)
  rw [List.getElem?_eq_getElem hi, foldl_add_exact] at h
  exact Option.some.inj h

end Arith

open Arith in
/-- What adding up positive numbers needs: a sum of positive numbers is positive, also when one summand is
the literal zero, and a positive number is not at most zero. -/
class PosArith (R : Type) [Arith R] : Prop where
  add_pos : ∀ a b : R, lt 0 a = true → lt 0 b = true → lt 0 (a + b) = true
  add_zero_pos : ∀ a : R, lt 0 a = true → lt 0 (a + 0) = true
  zero_add_pos : ∀ a : R, lt 0 a = true → lt 0 (0 + a) = true
  not_le_zero : ∀ a : R, lt 0 a = true → le a 0 = false
  ofInt_pos : ∀ n : Int, 0 < n → lt 0 (ofInt n : R) = true
  one_pos : lt 0 (1 : R) = true

namespace PosArith

open Arith

instance exact (K : Type) [Field K] [LinearOrder K] [IsStrictOrderedRing K] : PosArith K where
  add_pos a b ha hb := by
    simp only [lt_exact, decide_eq_true_eq] at *
    exact ha.trans_le (le_add_of_nonneg_right hb.le)
  add_zero_pos a ha := by simpa using ha
  zero_add_pos a ha := by simpa using ha
  not_le_zero a ha := by simpa using ha
  ofInt_pos n hn := by simpa using hn
  one_pos := by simp

variable {R : Type} [Arith R] [PosArith R]

theorem sum_pos {ws : List R} (hne : ws ≠ []) (hpos : ∀ w ∈ ws, lt 0 w = true) : lt 0 (sum ws) = true := by
  suffices h : ∀ (vs : List R) (running : R), lt 0 running = true → (∀ v ∈ vs, lt 0 v = true) →
      lt 0 (vs.foldl (· + ·) running) = true by
    cases ws with
    | nil => exact absurd rfl hne
    | cons w ws =>
        exact h ws (0 + w) (zero_add_pos w (hpos w (by simp))) fun v hv => hpos v (List.mem_cons_of_mem _ hv)
  intro vs
  induction vs with
  | nil => exact fun running hrunning _ => hrunning
  | cons v vs ih =>
      intro running hrunning hvs
      exact ih _ (add_pos _ _ hrunning (hvs v (by simp))) fun w hw => hvs w (List.mem_cons_of_mem _ hw)

theorem sum_add_sum_pos {vs ws : List R} (hne : vs ≠ [] ∨ ws ≠ []) (hvs : ∀ v ∈ vs, lt 0 v = true)
    (hws : ∀ w ∈ ws, lt 0 w = true) : lt 0 (sum vs + sum ws) = true := by
  by_cases hv : vs = []
  · subst hv
    exact zero_add_pos _ (sum_pos (by simpa using hne) hws)
  · by_cases hw : ws = []
    · subst hw
      exact add_zero_pos _ (sum_pos hv hvs)
    · exact add_pos _ _ (sum_pos hv hvs) (sum_pos hw hws)

end PosArith

end Tea
