import Tea.Lib.Sums
import Mathlib.Algebra.BigOperators.Ring.Finset
import Mathlib.Data.Nat.Bitwise
/-!
# Covers of a prefix by power-of-two trunks

Trunk `(k, i)` of a vertex is the range `[i * 2^k, (i + 1) * 2^k)` of its positions. `decomposeToTrunks L kMax`
takes one trunk for every set bit of `L`, from the highest level down, each starting where the last one ended.

If `L < 2^(kMax + 1)`, the trunks tile `[0, L)` (`sum_cover` for sums over them, `end_le_of_mem_cover` for their
ends), there are `popcount L` of them, and each is a full trunk of every vertex of degree at least `L`.
-/

namespace Tea

/-- `TrunkRef`. -/
structure TrunkRef where
  level : Nat
  index : Nat
deriving Repr, DecidableEq

/-- The loop of `decompose_to_trunks` over the levels below `k`, with the running position `pos`. -/
def decomposeFrom (L : Nat) : (k : Nat) → (pos : Nat) → List TrunkRef
  | 0, _ => []
  | k + 1, pos =>
      if L.testBit k then ⟨k, pos >>> k⟩ :: decomposeFrom L k (pos + (1 <<< k)) else decomposeFrom L k pos

/-- `decompose_to_trunks`. -/
def decomposeToTrunks (L : Nat) (kMax : Int) : List TrunkRef := decomposeFrom L (kMax + 1).toNat 0

/-- `__builtin_popcountll`: the number of set bits. -/
def popcount (L : Nat) : Nat := (List.range (L.log2 + 1)).countP L.testBit

namespace TrunkRef

/-- The first position of the trunk. -/
def lo (t : TrunkRef) : Nat := t.index * 2 ^ t.level

/-- The position behind the trunk. -/
def hi (t : TrunkRef) : Nat := (t.index + 1) * 2 ^ t.level

theorem hi_eq (t : TrunkRef) : t.hi = t.lo + 2 ^ t.level := by
  rw [hi, lo, Nat.succ_mul]

end TrunkRef

/-! ### The loop -/

section loop

variable {L : Nat}

theorem lo_shiftRight {k pos : Nat} (hpos : 2 ^ k ∣ pos) : TrunkRef.lo ⟨k, pos >>> k⟩ = pos := by
  rw [TrunkRef.lo, Nat.shiftRight_eq_div_pow, Nat.div_mul_cancel hpos]

theorem mod_two_pow_succ_of_testBit {k : Nat} (h : L.testBit k) : L % 2 ^ (k + 1) = 2 ^ k + L % 2 ^ k := by
  rw [Nat.testBit_eq_decide_div_mod_eq, decide_eq_true_eq] at h
  rw [Nat.mod_pow_succ, h, Nat.mul_one, Nat.add_comm]

theorem mod_two_pow_succ_of_not_testBit {k : Nat} (h : ¬ L.testBit k) : L % 2 ^ (k + 1) = L % 2 ^ k := by
  rw [Nat.testBit_eq_decide_div_mod_eq, decide_eq_true_eq] at h
  have hzero : L / 2 ^ k % 2 = 0 := by omega
  rw [Nat.mod_pow_succ, hzero, Nat.mul_zero, Nat.add_zero]

theorem dvd_next {k pos : Nat} (hpos : 2 ^ (k + 1) ∣ pos) : 2 ^ k ∣ pos + 1 <<< k := by
  rw [Nat.one_shiftLeft]
  exact (Nat.pow_dvd_pow_iff_le_right'.mpr (Nat.le_succ k)).trans hpos |>.add (dvd_refl _)

theorem dvd_same {k pos : Nat} (hpos : 2 ^ (k + 1) ∣ pos) : 2 ^ k ∣ pos :=
  (Nat.pow_dvd_pow_iff_le_right'.mpr (Nat.le_succ k)).trans hpos

theorem mem_decomposeFrom (k pos : Nat) (hpos : 2 ^ k ∣ pos) :
    ∀ t ∈ decomposeFrom L k pos, t.level < k ∧ pos ≤ t.lo ∧ t.hi ≤ pos + L % 2 ^ k := by
  induction k generalizing pos with
  | zero => simp [decomposeFrom]
  | succ k ih =>
      intro t ht
      rw [decomposeFrom] at ht
      split_ifs at ht with hbit
      · rw [mod_two_pow_succ_of_testBit hbit]
        rcases List.mem_cons.mp ht with rfl | ht
        · rw [TrunkRef.hi_eq, lo_shiftRight (dvd_same hpos)]
          refine ⟨Nat.lt_succ_self k, le_rfl, ?_⟩
          dsimp only
          omega
        · obtain ⟨hk, hlo, hhi⟩ := ih _ (dvd_next hpos) t ht
          rw [Nat.one_shiftLeft] at hlo hhi
          exact ⟨by omega, by omega, by omega⟩
      · rw [mod_two_pow_succ_of_not_testBit hbit]
        obtain ⟨hk, hlo, hhi⟩ := ih _ (dvd_same hpos) t ht
        exact ⟨by omega, hlo, hhi⟩

theorem sum_decomposeFrom {M : Type} [AddCommMonoid M] (f : Nat → M) (k pos : Nat) (hpos : 2 ^ k ∣ pos) :
    ((decomposeFrom L k pos).map fun t => ∑ l ∈ Finset.range (2 ^ t.level), f (t.lo + l)).sum =
      ∑ i ∈ Finset.range (L % 2 ^ k), f (pos + i) := by
  induction k generalizing pos with
  | zero => simp [decomposeFrom, Nat.mod_one]
  | succ k ih =>
      rw [decomposeFrom]
      split_ifs with hbit
      · rw [mod_two_pow_succ_of_testBit hbit, List.map_cons, List.sum_cons, lo_shiftRight (dvd_same hpos),
          ih _ (dvd_next hpos), Finset.sum_range_add, Nat.one_shiftLeft]
        simp only [Nat.add_assoc]
      · rw [mod_two_pow_succ_of_not_testBit hbit, ih _ (dvd_same hpos)]

theorem length_decomposeFrom (k pos : Nat) :
    (decomposeFrom L k pos).length = (List.range k).countP L.testBit := by
  induction k generalizing pos with
  | zero => rfl
  | succ k ih =>
      rw [decomposeFrom, List.range_succ, List.countP_append, List.countP_cons, List.countP_nil]
      split_ifs with hbit
      · rw [List.length_cons, ih, Nat.zero_add]
      · rw [ih, Nat.zero_add]
        rfl

theorem countP_testBit {k m : Nat} (hk : L < 2 ^ k) : (List.range (k + m)).countP L.testBit =
    (List.range k).countP L.testBit := by
  induction m with
  | zero => rfl
  | succ m ih =>
      have hbit : L.testBit (k + m) = false :=
        Nat.testBit_lt_two_pow (hk.trans_le (Nat.pow_le_pow_right Nat.two_pos (Nat.le_add_right k m)))
      rw [← Nat.add_assoc, List.range_succ, List.countP_append, ih]
      simp [hbit]

theorem countP_testBit_eq_popcount {k : Nat} (hk : L < 2 ^ k) :
    (List.range k).countP L.testBit = popcount L := by
  have hlog : L < 2 ^ (L.log2 + 1) := Nat.lt_log2_self
  rw [popcount]
  rcases Nat.le_total k (L.log2 + 1) with h | h
  · rw [← Nat.add_sub_cancel' h, countP_testBit hk]
  · rw [← Nat.add_sub_cancel' h, countP_testBit hlog]

end loop

/-! ### The cover -/

section cover

variable {L : Nat} {kMax : Int}

theorem sum_cover {M : Type} [AddCommMonoid M] (hL : L < 2 ^ (kMax + 1).toNat) (f : Nat → M) :
    ((decomposeToTrunks L kMax).map fun t => ∑ l ∈ Finset.range (2 ^ t.level), f (t.lo + l)).sum =
      ∑ i ∈ Finset.range L, f i := by
  rw [decomposeToTrunks, sum_decomposeFrom f _ 0 (dvd_zero _), Nat.mod_eq_of_lt hL]
  simp only [Nat.zero_add]

theorem level_lt_of_mem_cover {t : TrunkRef} (ht : t ∈ decomposeToTrunks L kMax) :
    t.level < (kMax + 1).toNat :=
  (mem_decomposeFrom _ 0 (dvd_zero _) t ht).1

theorem hi_le_of_mem_cover {t : TrunkRef} (ht : t ∈ decomposeToTrunks L kMax) : t.hi ≤ L := by
  have h := (mem_decomposeFrom _ 0 (dvd_zero _) t ht).2.2
  rw [Nat.zero_add] at h
  exact h.trans (Nat.mod_le _ _)

theorem index_lt_of_mem_cover {D : Nat} (hLD : L ≤ D) {t : TrunkRef} (ht : t ∈ decomposeToTrunks L kMax) :
    t.index < D >>> t.level := by
  have h : (t.index + 1) * 2 ^ t.level ≤ D := (hi_le_of_mem_cover ht).trans hLD
  rw [Nat.shiftRight_eq_div_pow]
  exact (Nat.le_div_iff_mul_le (Nat.two_pow_pos _)).mpr h

theorem length_cover (hL : L < 2 ^ (kMax + 1).toNat) : (decomposeToTrunks L kMax).length = popcount L := by
  rw [decomposeToTrunks, length_decomposeFrom, countP_testBit_eq_popcount hL]

theorem cover_ne_nil (hL : L < 2 ^ (kMax + 1).toNat) (hpos : 0 < L) : decomposeToTrunks L kMax ≠ [] := by
  intro hnil
  have h := sum_cover hL fun _ => 1
  rw [hnil] at h
  simp at h
  omega

theorem decomposeFrom_zero (k pos : Nat) : decomposeFrom 0 k pos = [] := by
  induction k generalizing pos with
  | zero => rfl
  | succ k ih => simpa [decomposeFrom] using ih pos

@[simp] theorem decomposeToTrunks_zero (kMax : Int) : decomposeToTrunks 0 kMax = [] := decomposeFrom_zero _ _

end cover

example : decomposeToTrunks 13 3 = [⟨3, 0⟩, ⟨2, 2⟩, ⟨0, 12⟩] := by decide

end Tea
