import Mathlib.Algebra.Order.Ring.Int
import Mathlib.Data.Int.Order.Basic
/-!
# Integer arithmetic in a range

Signed machine arithmetic, as long as no result leaves the range of its type. An operation returns the exact result if it
is in the range and `none` if it overflows; `shr` returns `none` if set bits are shifted out. A computation in `Option`
that returns a value has performed every operation on the way without overflow.
-/

namespace Tea.Checked

variable (range : Int → Prop) [DecidablePred range]

/-- The value, if it is in the range. -/
def fit (x : Int) : Option Int := if range x then some x else none

def add (x y : Int) : Option Int := fit range (x + y)

def sub (x y : Int) : Option Int := fit range (x - y)

def mul (x y : Int) : Option Int := fit range (x * y)

/-- Division towards zero. -/
def div (x y : Int) : Option Int := if y = 0 then none else fit range (x.tdiv y)

def shl (x : Int) (k : Nat) : Option Int := fit range (x * 2 ^ k)

/-- The right shift of a number whose low bits are zero. -/
def shr (x : Int) (k : Nat) : Option Int := if (2 : Int) ^ k ∣ x then some (x / 2 ^ k) else none

variable {range}

theorem fit_of_range {x : Int} (h : range x) : fit range x = some x := if_pos h

theorem add_of_not_range {x y : Int} (h : ¬ range (x + y)) : add range x y = none := if_neg h

/-! The operations on natural numbers. -/

theorem add_natCast {x y : Nat} (h : range ((x + y : Nat) : Int)) : add range x y = some ((x + y : Nat) : Int) :=
  fit_of_range h

theorem sub_natCast {x y : Nat} (hle : y ≤ x) (h : range ((x - y : Nat) : Int)) :
    sub range x y = some ((x - y : Nat) : Int) := by
  rw [sub, ← Nat.cast_sub hle]
  exact fit_of_range h

theorem mul_natCast {x y : Nat} (h : range ((x * y : Nat) : Int)) : mul range x y = some ((x * y : Nat) : Int) := by
  rw [mul, ← Nat.cast_mul]
  exact fit_of_range h

theorem div_natCast {x y : Nat} (hy : 0 < y) (h : range ((x / y : Nat) : Int)) :
    div range x y = some ((x / y : Nat) : Int) := by
  have hne : (y : Int) ≠ 0 := by omega
  have hdiv : (x : Int).tdiv y = ((x / y : Nat) : Int) := rfl
  rw [div, if_neg hne, hdiv]
  exact fit_of_range h

theorem shl_one {k : Nat} (h : range (2 ^ k)) : shl range 1 k = some (2 ^ k) := by
  rw [shl, one_mul]
  exact fit_of_range h

theorem shr_natCast {x k : Nat} (h : 2 ^ k ∣ x) : shr x k = some ((x >>> k : Nat) : Int) := by
  have hdvd : (2 : Int) ^ k ∣ (x : Int) := by exact_mod_cast h
  rw [shr, if_pos hdvd, Nat.shiftRight_eq_div_pow]
  push_cast
  rfl

end Tea.Checked
