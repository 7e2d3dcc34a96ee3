import Tea.Base.Arith
import Tea.Lib.Draw
import Mathlib.Tactic.Positivity
/-!
# The generator

`Pcg64` is a 128-bit linear congruential generator with a permuted 64-bit output. It answers the three requests of
the samplers within their bounds (`Pcg64.admissible`).
-/

namespace Tea

open Arith

/-- A generator whose state is made from a seed and a stream number. -/
structure SeededGenerator (R σ : Type) extends Generator R σ where
  seedWith : (seed stream : Nat) → σ

/-- `Pcg64`: `state_` and `inc_`. -/
structure Pcg64 where
  state : BitVec 128 := 0
  inc : BitVec 128 := 1
deriving Repr, DecidableEq

namespace Pcg64

/-- `MULT`. -/
def mult : BitVec 128 := (6364136223846793005#128 <<< 64) + 1442695040888963407#128

/-- `next_u64`. -/
def nextU64 (self : Pcg64) : BitVec 64 × Pcg64 :=
  let old := self.state
  let xorshifted := ((old >>> 64) ^^^ old).setWidth 64
  let rot := (old >>> 122).setWidth 64
  ((xorshifted >>> rot) ||| (xorshifted <<< (-rot &&& 63)), { self with state := old * mult + self.inc })

/-- `seed_with`. -/
def seedWith (seed stream : Nat) : Pcg64 :=
  let self : Pcg64 := { state := 0, inc := (BitVec.ofNat 64 stream).setWidth 128 <<< 1 ||| 1 }
  let self := (nextU64 self).2
  let self := { self with state := self.state + (BitVec.ofNat 64 seed).setWidth 128 }
  (nextU64 self).2

section draws

variable {R : Type} [Arith R]

/-- `next_u01`. -/
def nextU01 (self : Pcg64) : R × Pcg64 :=
  (ofInt ((self.nextU64.1 >>> 11).toNat : Int) * (1 / ofInt 9007199254740992), self.nextU64.2)

/-- `next_f01`. -/
def nextF01 (self : Pcg64) : R × Pcg64 :=
  (toFloat (toFloat (ofInt ((self.nextU64.1 >>> 40).toNat : Int)) * (1 / ofInt 16777216)), self.nextU64.2)

/-- `next_below`. -/
def nextBelow (self : Pcg64) (n : Nat) : Nat × Pcg64 :=
  (((self.nextU64.1.toNat * n) >>> 64) % 2 ^ 32, self.nextU64.2)

end draws

/-- The generator as the samplers use it. -/
def generator (R : Type) [Arith R] : SeededGenerator R Pcg64 where
  nextU01 := nextU01
  nextF01 := nextF01
  nextBelow := nextBelow
  seedWith := seedWith

theorem nextBelow_lt (self : Pcg64) {n : Nat} (hn : 0 < n) : (self.nextBelow n).1 < n := by
  have hx : self.nextU64.1.toNat < 2 ^ 64 := self.nextU64.1.isLt
  have hdiv : self.nextU64.1.toNat * n / 2 ^ 64 < n :=
    Nat.div_lt_of_lt_mul (Nat.mul_lt_mul_of_pos_right hx hn)
  rw [nextBelow, Nat.shiftRight_eq_div_pow]
  exact (Nat.mod_le _ _).trans_lt hdiv

variable {K : Type} [Field K] [LinearOrder K] [IsStrictOrderedRing K]

theorem nextU01_mem (self : Pcg64) : 0 ≤ (self.nextU01 : K × Pcg64).1 ∧ (self.nextU01 : K × Pcg64).1 < 1 := by
  have hlt : (self.nextU64.1 >>> 11).toNat < 9007199254740992 := by
    rw [BitVec.toNat_ushiftRight, Nat.shiftRight_eq_div_pow]
    have := self.nextU64.1.isLt
    omega
  have hcast : ((self.nextU64.1 >>> 11).toNat : K) < 9007199254740992 := by exact_mod_cast hlt
  simp only [nextU01, ofInt_exact, Int.cast_natCast, Int.cast_ofNat]
  constructor
  · positivity
  · rw [mul_one_div, div_lt_one (by norm_num)]
    exact hcast

theorem admissible : (generator K).Admissible fun x => 0 ≤ x ∧ x < 1 where
  u01 := nextU01_mem
  below := fun self _ hn => self.nextBelow_lt hn

end Pcg64

end Tea
