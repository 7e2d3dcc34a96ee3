import Mathlib.Algebra.Ring.Int.Defs
import Mathlib.Algebra.Ring.Nat
import Mathlib.Data.List.Basic
/-!
# Constants and records shared by the modules

Vertex ids and timestamps are `Int`; sizes, offsets and positions are `Nat`.
-/

namespace Tea

/-! ### `config.hpp` -/

/-- `kAuxIndexMaxBytes`. -/
def kAuxIndexMaxBytes : Nat := 4 * 1024 * 1024 * 1024

/-- `kPatTrunkSizeMin`. -/
def kPatTrunkSizeMin : Int := 8

/-- `kWalkDeadSentinel`: the vertex of a dead step. -/
def kWalkDeadSentinel : Int := -1

/-- `kSentinelStartTimestamp`, the largest `int64`. -/
def kSentinelStartTimestamp : Int := 2 ^ 63 - 1

/-- `kHpatDegreeThreshold`. -/
def kHpatDegreeThreshold : Nat := 64

/-- `kNode2VecMaxRetries`. -/
def kNode2VecMaxRetries : Nat := 1024

/-! ### Machine integers -/

/-- `static_cast<int32_t>`, and the value of `int32_t` arithmetic whose exact result is `x`. -/
def toInt32 (x : Int) : Int := x.bmod (2 ^ 32)

/-- The value fits `int32_t`. -/
def IsInt32 (x : Int) : Prop := -2 ^ 31 ≤ x ∧ x < 2 ^ 31

/-- The value fits `int64_t`. -/
def IsInt64 (x : Int) : Prop := -2 ^ 63 ≤ x ∧ x < 2 ^ 63

instance (x : Int) : Decidable (IsInt32 x) := inferInstanceAs (Decidable (_ ∧ _))

instance (x : Int) : Decidable (IsInt64 x) := inferInstanceAs (Decidable (_ ∧ _))

theorem toInt32_of_isInt32 {x : Int} (h : IsInt32 x) : toInt32 x = x := by
  obtain ⟨hlo, hhi⟩ := h
  exact Int.bmod_eq_of_le (by omega) (by omega)

theorem toInt32_isInt32 (x : Int) : IsInt32 (toInt32 x) := by
  have hlo := Int.le_bmod (x := x) (m := 2 ^ 32) (by omega)
  have hhi := Int.bmod_lt (x := x) (m := 2 ^ 32) (by omega)
  unfold IsInt32 toInt32
  omega

theorem isInt32_natCast {n : Nat} (h : n < 2 ^ 31) : IsInt32 n := ⟨by omega, by omega⟩

theorem toInt32_natCast_eq_iff {n : Nat} : toInt32 n = n ↔ n < 2 ^ 31 := by
  constructor
  · intro h
    have hfits := (toInt32_isInt32 n).2
    rw [h] at hfits
    exact_mod_cast hfits
  · intro h
    exact toInt32_of_isInt32 (isInt32_natCast h)

/-! ### `edge.hpp` and `sampler.hpp` -/

/-- A temporal edge of the input. -/
structure Edge where
  u : Int
  v : Int
  t : Int
deriving Repr, DecidableEq

/-- One slot of a walk. -/
structure NodeStep where
  v : Int
  t : Int
deriving Repr, DecidableEq

/-- The result of one sample step; `v = kWalkDeadSentinel` says that the walk died. -/
structure SampledStep where
  v : Int
  t : Int
deriving Repr, DecidableEq

/-- The dead step `SampledStep{kWalkDeadSentinel, 0}`. -/
def SampledStep.dead : SampledStep := ⟨kWalkDeadSentinel, 0⟩

end Tea
