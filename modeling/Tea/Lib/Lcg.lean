import Mathlib.Algebra.Ring.GeomSum
import Mathlib.Data.Int.ModEq
import Mathlib.Algebra.Ring.Int.Parity
import Mathlib.RingTheory.Int.Basic
import Mathlib.Tactic.Ring
import Mathlib.Tactic.LinearCombination
/-!
# Linear congruential generators modulo a power of two

After `n` steps of `x ↦ a * x + c` the state has moved by `(a - 1) * x + c` times `1 + a + ... + a^(n - 1)`
(`iterate_affine_sub`). If `a` and `c` are odd, the first factor is odd, so the state is back modulo `2^k` exactly when
`2^k` divides the geometric sum.

* If `b` is one modulo four, `2^k` divides the sum of `n` powers exactly when it divides `n` (`two_pow_dvd_geom_iff`).
* If `a + 1` is an odd multiple of `2^e` with `e ≥ 2`, two steps have the multiplier `a^2`, which is one modulo four, and
  contribute a factor `2^e`: the period modulo `2^k` is `2^(k - e + 1)` (`returns_iff`).
-/

namespace Tea.Lcg

open Finset

/-- One step. -/
def affine {R : Type} [Add R] [Mul R] (a c x : R) : R := a * x + c

theorem iterate_affine {R : Type} [CommRing R] (a c x : R) (n : Nat) :
    (affine a c)^[n] x = a ^ n * x + c * ∑ i ∈ range n, a ^ i := by
  induction n with
  | zero => simp
  | succ n ih =>
      rw [Function.iterate_succ_apply', ih, affine, geom_sum_succ]
      ring

theorem iterate_affine_sub {R : Type} [CommRing R] (a c x : R) (n : Nat) :
    (affine a c)^[n] x - x = ((a - 1) * x + c) * ∑ i ∈ range n, a ^ i := by
  have hgeom : (∑ i ∈ range n, a ^ i) * (a - 1) = a ^ n - 1 := geom_sum_mul a n
  rw [iterate_affine]
  linear_combination (-x) * hgeom

/-! ### The two-adic size of a geometric sum -/

theorem geom_two_mul {R : Type} [CommRing R] (a : R) (m : Nat) :
    ∑ i ∈ range (2 * m), a ^ i = (1 + a) * ∑ i ∈ range m, (a ^ 2) ^ i := by
  induction m with
  | zero => simp
  | succ m ih =>
      have hsucc : 2 * (m + 1) = 2 * m + 1 + 1 := by ring
      rw [hsucc, sum_range_succ, sum_range_succ, ih, sum_range_succ (fun i => (a ^ 2) ^ i)]
      ring

theorem even_geom_iff {a : Int} (ha : Odd a) (n : Nat) : Even (∑ i ∈ range n, a ^ i) ↔ Even n := by
  induction n with
  | zero => simp
  | succ n ih =>
      have hpow : ¬ Even (a ^ n) := Int.not_even_iff_odd.mpr (ha.pow)
      rw [geom_sum_succ', Int.even_add, ih, Nat.even_add_one]
      tauto

theorem odd_geom {a : Int} (ha : Odd a) {n : Nat} (hn : Odd n) : Odd (∑ i ∈ range n, a ^ i) := by
  rw [← Int.not_even_iff_odd, even_geom_iff ha, Nat.not_even_iff_odd]
  exact hn

theorem two_pow_dvd_mul_iff {d : Int} (hd : Odd d) (k : Nat) (g : Int) : (2 : Int) ^ k ∣ d * g ↔ (2 : Int) ^ k ∣ g := by
  have hcoprime : IsCoprime ((2 : Int) ^ k) d := (Int.isCoprime_two_left.mpr hd).pow_left
  exact ⟨hcoprime.dvd_of_dvd_mul_left, fun h => h.mul_left d⟩

theorem not_two_pow_dvd_of_odd {R : Type} [CommSemiring R] {g : R} (hg : ¬ Even g) {k : Nat} (hk : 0 < k) :
    ¬ (2 : R) ^ k ∣ g := fun h => hg (even_iff_two_dvd.mpr ((dvd_pow_self 2 hk.ne').trans h))

theorem two_pow_dvd_geom_iff {b : Int} (hb : b % 4 = 1) (k n : Nat) :
    (2 : Int) ^ k ∣ ∑ i ∈ range n, b ^ i ↔ 2 ^ k ∣ n := by
  induction k generalizing b n with
  | zero => simp
  | succ k ih =>
      have hodd : Odd b := Int.odd_iff.mpr (by omega)
      rcases Nat.even_or_odd n with hn | hn
      · obtain ⟨m, rfl⟩ := hn.two_dvd
        have hpair : (1 : Int) + b = 2 * ((1 + b) / 2) := by omega
        have hhalf : Odd ((1 + b) / 2) := Int.odd_iff.mpr (by omega)
        have hsquare : b ^ 2 % 4 = 1 := by
          rw [pow_two, Int.mul_emod, hb]
          rfl
        rw [geom_two_mul, hpair, mul_assoc, pow_succ' (2 : Int), pow_succ' (2 : Nat), Nat.mul_dvd_mul_iff_left Nat.two_pos,
          mul_dvd_mul_iff_left (two_ne_zero), two_pow_dvd_mul_iff hhalf, ih hsquare]
      · have hsum : ¬ Even (∑ i ∈ range n, b ^ i) := Int.not_even_iff_odd.mpr (odd_geom hodd hn)
        have hcount : ¬ Even n := Nat.not_even_iff_odd.mpr hn
        exact iff_of_false (not_two_pow_dvd_of_odd hsum (Nat.succ_pos k))
          (not_two_pow_dvd_of_odd hcount (Nat.succ_pos k))

/-! ### The period -/

section period

variable {a c : Int} {e : Nat} {q : Int} (ha : a + 1 = 2 ^ e * q) (hq : Odd q) (he : 2 ≤ e) (hc : Odd c)

include ha he in
theorem mod_four_of_add_one : a % 4 = 3 := by
  have hdvd : (4 : Int) ∣ a + 1 := by
    rw [ha]
    exact (pow_dvd_pow (2 : Int) he).mul_right q
  omega

include ha hq he in
theorem two_pow_dvd_geom_iff_of_add_one {k : Nat} (hk : e ≤ k) (n : Nat) :
    (2 : Int) ^ k ∣ ∑ i ∈ range n, a ^ i ↔ 2 ^ (k - e + 1) ∣ n := by
  have hmod := mod_four_of_add_one ha he
  have hodd : Odd a := Int.odd_iff.mpr (by omega)
  rcases Nat.even_or_odd n with hn | hn
  · obtain ⟨m, rfl⟩ := hn.two_dvd
    have hsquare : a ^ 2 % 4 = 1 := by
      rw [pow_two, Int.mul_emod, hmod]
      rfl
    have hsplit : (2 : Int) ^ k = 2 ^ e * 2 ^ (k - e) := by rw [← pow_add, Nat.add_sub_cancel' hk]
    have hpos : (2 : Int) ^ e ≠ 0 := pow_ne_zero e two_ne_zero
    rw [geom_two_mul, add_comm 1 a, ha, mul_assoc, hsplit, mul_dvd_mul_iff_left hpos, two_pow_dvd_mul_iff hq,
      two_pow_dvd_geom_iff hsquare, pow_succ', Nat.mul_dvd_mul_iff_left Nat.two_pos]
  · have hsum : ¬ Even (∑ i ∈ range n, a ^ i) := Int.not_even_iff_odd.mpr (odd_geom hodd hn)
    have hcount : ¬ Even n := Nat.not_even_iff_odd.mpr hn
    exact iff_of_false (not_two_pow_dvd_of_odd hsum (by omega)) (not_two_pow_dvd_of_odd hcount (Nat.succ_pos _))

include ha he hc in
theorem odd_first_move (x : Int) : Odd ((a - 1) * x + c) := by
  have hmod := mod_four_of_add_one ha he
  have heven : Even (a - 1) := Int.even_iff.mpr (by omega)
  exact (heven.mul_right x).add_odd hc

include ha hq he hc in
/-- The state is back modulo `2^k` exactly after the multiples of `2^(k - e + 1)` steps. -/
theorem returns_iff {k : Nat} (hk : e ≤ k) (x : Int) (n : Nat) :
    (2 : Int) ^ k ∣ (affine a c)^[n] x - x ↔ 2 ^ (k - e + 1) ∣ n := by
  rw [iterate_affine_sub, two_pow_dvd_mul_iff (odd_first_move ha he hc x),
    two_pow_dvd_geom_iff_of_add_one ha hq he hk]

include ha he hc in
theorem move_ne_two (x : Int) (n : Nat) : ((affine a c)^[n] x - x) % 4 ≠ 2 := by
  have hmod := mod_four_of_add_one ha he
  have hodd : Odd a := Int.odd_iff.mpr (by omega)
  have hfirst := odd_first_move ha he hc x
  rw [iterate_affine_sub]
  rcases Nat.even_or_odd n with hn | hn
  · obtain ⟨m, rfl⟩ := hn.two_dvd
    have hdvd : (4 : Int) ∣ ((a - 1) * x + c) * ∑ i ∈ range (2 * m), a ^ i := by
      have hpair : (4 : Int) ∣ 1 + a := by omega
      rw [geom_two_mul]
      exact (hpair.mul_right _).mul_left _
    omega
  · have hmove := Int.odd_iff.mp (hfirst.mul (odd_geom hodd hn))
    omega

end period

/-! ### Machine words -/

section word

variable {w : Nat}

theorem toNat_affine (a c x : BitVec w) :
    ((affine a c x).toNat : Int) ≡ affine (a.toNat : Int) c.toNat x.toNat [ZMOD 2 ^ w] := by
  unfold Int.ModEq affine
  rw [BitVec.toNat_add, BitVec.toNat_mul]
  push_cast
  rw [Int.emod_emod_of_dvd _ (dvd_refl _), Int.emod_add_emod]

theorem toNat_iterate_affine (a c x : BitVec w) (n : Nat) :
    (((affine a c)^[n] x).toNat : Int) ≡ (affine (a.toNat : Int) c.toNat)^[n] x.toNat [ZMOD 2 ^ w] := by
  induction n with
  | zero => rfl
  | succ n ih =>
      rw [Function.iterate_succ_apply', Function.iterate_succ_apply']
      exact (toNat_affine a c _).trans ((ih.mul_left _).add_right _)

theorem iterate_affine_eq_iff (a c x y : BitVec w) (n : Nat) : (affine a c)^[n] x = y ↔
    (2 : Int) ^ w ∣ (affine (a.toNat : Int) c.toNat)^[n] x.toNat - y.toNat := by
  have hcast := toNat_iterate_affine a c x n
  rw [← BitVec.toNat_inj, ← Int.modEq_iff_dvd]
  constructor
  · intro h
    rw [h] at hcast
    exact hcast
  · intro h
    have hmod := (h.trans hcast.symm).symm
    have hnat : ((affine a c)^[n] x).toNat ≡ y.toNat [MOD 2 ^ w] := by
      apply Int.natCast_modEq_iff.mp
      push_cast
      exact hmod
    exact hnat.eq_of_lt_of_lt (BitVec.isLt _) (BitVec.isLt _)

end word

end Tea.Lcg
