import Tea.Lib.Lcg
import Tea.Sampling.Rng
/-!
# The period of the generator

`MULT` is three modulo four, where a generator of full period has a multiplier that is one modulo four. `MULT + 1` is an
odd multiple of `2^4`, so a state with an odd increment comes back after `2^125` steps and not before
(`state_orbit_eq_iff`), and on the way it meets no state that differs from it by two modulo four (`state_orbit_ne`).
-/

namespace Tea.Pcg64

open Lcg

/-- The generator after `n` calls of `next_u64`. -/
def orbit (self : Pcg64) (n : Nat) : Pcg64 := (fun s : Pcg64 => s.nextU64.2)^[n] self

/-- The state runs through a single cycle of length `2^128`. -/
structure FullCycle (rng : Pcg64) : Prop where
  returns : (rng.orbit (2 ^ 128)).state = rng.state
  first : ∀ n, 0 < n → n < 2 ^ 128 → (rng.orbit n).state ≠ rng.state
  visits : ∀ s, ∃ n, (rng.orbit n).state = s

theorem orbit_eq (self : Pcg64) (n : Nat) :
    self.orbit n = { state := (affine mult self.inc)^[n] self.state, inc := self.inc } := by
  unfold orbit
  induction n with
  | zero => rfl
  | succ n ih =>
      rw [Function.iterate_succ_apply', Function.iterate_succ_apply', ih, affine, BitVec.mul_comm mult]
      rfl

theorem mult_add_one : (mult.toNat : Int) + 1 = 2 ^ 4 * (6364136223846793005 * 2 ^ 60 + 90168440055560213) := by
  decide

section odd

variable {self : Pcg64} (hinc : Odd (self.inc.toNat : Int))

include hinc in
theorem state_orbit_eq_iff (n : Nat) : (self.orbit n).state = self.state ↔ 2 ^ 125 ∣ n := by
  rw [orbit_eq]
  refine (iterate_affine_eq_iff mult self.inc self.state self.state n).trans ?_
  exact returns_iff mult_add_one (by decide) (by decide) hinc (by decide : 4 ≤ 128) _ n

include hinc in
theorem state_orbit_ne (n : Nat) : (self.orbit n).state ≠ self.state + 2 := by
  rw [orbit_eq]
  intro h
  have hmove := move_ne_two mult_add_one (by decide) hinc (self.state.toNat : Int) n
  have hdvd := (iterate_affine_eq_iff mult self.inc self.state (self.state + 2) n).mp h
  have hfour : (4 : Int) ∣ 2 ^ 128 := by decide
  have htwo : (((self.state + 2).toNat : Nat) : Int) % 4 = ((self.state.toNat : Int) + 2) % 4 := by
    rw [BitVec.toNat_add]
    push_cast
    rw [Int.emod_emod_of_dvd _ (by decide)]
  have hmod := hfour.trans hdvd
  omega

include hinc in
theorem not_fullCycle : ¬ self.FullCycle := fun h =>
  h.first (2 ^ 125) (by decide) (by decide) ((state_orbit_eq_iff hinc _).mpr (dvd_refl _))

end odd

theorem odd_inc_seedWith (seed stream : Nat) : Odd ((seedWith seed stream).inc.toNat : Int) := by
  have hinc : (seedWith seed stream).inc = (BitVec.ofNat 64 stream).setWidth 128 <<< 1 ||| 1 := rfl
  have hbit : (seedWith seed stream).inc.toNat % 2 = 1 := by
    rw [hinc, BitVec.toNat_or, Nat.or_mod_two_eq_one]
    exact Or.inr rfl
  exact_mod_cast Nat.odd_iff.mpr hbit

/-- **No seed and no stream has the full period**: the state returns after `2^125` steps, and never meets the state that
differs from it by two. -/
theorem no_full_cycle (seed stream : Nat) :
    ¬ (seedWith seed stream).FullCycle ∧
      (∀ n, ((seedWith seed stream).orbit n).state = (seedWith seed stream).state ↔ 2 ^ 125 ∣ n) ∧
      ∀ n, ((seedWith seed stream).orbit n).state ≠ (seedWith seed stream).state + 2 :=
  ⟨not_fullCycle (odd_inc_seedWith seed stream), state_orbit_eq_iff (odd_inc_seedWith seed stream),
    state_orbit_ne (odd_inc_seedWith seed stream)⟩

/-- The generator of the first walk with seed 7. -/
theorem early_return : ((seedWith 7 0).orbit (2 ^ 125)).state = (seedWith 7 0).state ∧ ¬ (seedWith 7 0).FullCycle :=
  ⟨(state_orbit_eq_iff (odd_inc_seedWith 7 0) _).mpr (dvd_refl _), not_fullCycle (odd_inc_seedWith 7 0)⟩

end Tea.Pcg64
