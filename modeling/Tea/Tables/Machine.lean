import Tea.Base.Types
import Tea.Lib.Checked
import Tea.Tables.HpatLayout
import Tea.Tables.PatLayout
/-!
# The table arithmetic in `int32_t`

The modules on the tables count with natural numbers. The code counts with `int32_t`, and this module evaluates the same
expressions with every overflow and every bit lost in a shift reported as `none`.

* `decompose_to_trunks` never overflows below level 31 (`decomposeToTrunks_cover`).
* The trunk arithmetic of `Pat` adds the trunk size to the degree before it divides. That fits exactly if degree and
  trunk size together are below `2^31` (`pat_trunks_fit_iff`).
-/

namespace Tea

open Layout Checked

/-! ### `decompose_to_trunks` -/

/-- The loop of `decompose_to_trunks` over the levels below `k`: the trunks, and the count that is returned. -/
def decomposeInt32 (L : Nat) : (k : Nat) → (pos count : Int) → Option (List TrunkRef × Int)
  | 0, _, count => some ([], count)
  | k + 1, pos, count => do
      let mask ← shl IsInt64 1 k
      if L &&& mask.toNat ≠ 0 then
        let index ← shr pos k
        let size ← shl IsInt32 1 k
        let pos ← add IsInt32 pos size
        let count ← add IsInt32 count 1
        let (rest, count) ← decomposeInt32 L k pos count
        return (⟨k, index.toNat⟩ :: rest, count)
      else decomposeInt32 L k pos count

/-- `decompose_to_trunks` for `k_max` levels and the one below. -/
def decomposeToTrunksInt32 (L : Nat) (kMax : Int) : Option (List TrunkRef × Int) :=
  decomposeInt32 L (kMax + 1).toNat 0 0

/-- The positions of a trunk. -/
def TrunkRef.region (t : TrunkRef) : Region := ⟨t.lo, 2 ^ t.level⟩

section loop

variable {L : Nat}

theorem and_mask_ne_zero {k : Nat} : L &&& ((2 : Int) ^ k).toNat ≠ 0 ↔ L.testBit k := by
  have hmask : ((2 : Int) ^ k).toNat = 2 ^ k := by
    have hcast : (2 : Int) ^ k = ((2 ^ k : Nat) : Int) := by push_cast; rfl
    rw [hcast, Int.toNat_natCast]
  rw [hmask, Nat.and_two_pow]
  cases L.testBit k <;> simp

theorem shl_mask {k : Nat} (hk : k ≤ 30) : shl IsInt64 1 k = some (2 ^ k) ∧ shl IsInt32 1 k = some (2 ^ k) := by
  have hpow : (2 : Nat) ^ k ≤ 2 ^ 30 := Nat.pow_le_pow_right Nat.two_pos hk
  have hpowInt : (2 : Int) ^ k ≤ 2 ^ 30 := by exact_mod_cast hpow
  have hpowPos : (0 : Int) < 2 ^ k := by positivity
  exact ⟨shl_one ⟨by omega, by omega⟩, shl_one ⟨by omega, by omega⟩⟩

theorem decomposeInt32_take {k pos count : Nat} (hk : k ≤ 30) (hbit : L.testBit k) (hpos : 2 ^ k ∣ pos)
    (hend : pos + 2 ^ k < 2 ^ 31) (hcount : count + 1 < 2 ^ 31) : decomposeInt32 L (k + 1) pos count =
      (decomposeInt32 L k (pos + 1 <<< k : Nat) (count + 1 : Nat)).map fun r => (⟨k, pos >>> k⟩ :: r.1, r.2) := by
  have hnext : (pos : Int) + (2 : Int) ^ k = ((pos + 1 <<< k : Nat) : Int) := by
    rw [Nat.one_shiftLeft]
    push_cast
    rfl
  have hadd : add IsInt32 (pos : Int) (2 ^ k) = some ((pos + 1 <<< k : Nat) : Int) := by
    rw [add, hnext]
    apply fit_of_range
    apply isInt32_natCast
    rwa [Nat.one_shiftLeft]
  have hbump : add IsInt32 (count : Int) 1 = some ((count + 1 : Nat) : Int) :=
    add_natCast (y := 1) (isInt32_natCast hcount)
  rw [decomposeInt32, (shl_mask hk).1]
  simp only [Option.bind_eq_bind, Option.bind_some, and_mask_ne_zero]
  rw [if_pos hbit, shr_natCast hpos, (shl_mask hk).2, Option.bind_some, Option.bind_some, hadd, Option.bind_some, hbump,
    Option.bind_some, Int.toNat_natCast]
  cases decomposeInt32 L k (pos + 1 <<< k : Nat) (count + 1 : Nat) <;> rfl

theorem decomposeInt32_skip {k : Nat} (pos count : Int) (hk : k ≤ 30) (hbit : ¬ L.testBit k) :
    decomposeInt32 L (k + 1) pos count = decomposeInt32 L k pos count := by
  rw [decomposeInt32, (shl_mask hk).1]
  simp only [Option.bind_eq_bind, Option.bind_some, and_mask_ne_zero]
  rw [if_neg hbit]

theorem decomposeInt32_eq (k pos count : Nat) (hk : k ≤ 31) (hpos : 2 ^ k ∣ pos) (hend : pos + L % 2 ^ k < 2 ^ 31)
    (hcount : count + k < 2 ^ 31) : decomposeInt32 L k pos count =
      some (decomposeFrom L k pos, ((count + (decomposeFrom L k pos).length : Nat) : Int)) := by
  induction k generalizing pos count with
  | zero => rfl
  | succ k ih =>
      rw [decomposeFrom]
      split_ifs with hbit
      · rw [mod_two_pow_succ_of_testBit hbit] at hend
        have hrest := ih (pos + 1 <<< k) (count + 1) (by omega) (dvd_next hpos)
          (by rw [Nat.one_shiftLeft]; omega) (by omega)
        have hlen : count + 1 + (decomposeFrom L k (pos + 1 <<< k)).length =
            count + (⟨k, pos >>> k⟩ :: decomposeFrom L k (pos + 1 <<< k) : List TrunkRef).length := by
          rw [List.length_cons]
          omega
        rw [decomposeInt32_take (by omega) hbit (dvd_same hpos) (by omega) (by omega), hrest, hlen]
        rfl
      · rw [mod_two_pow_succ_of_not_testBit hbit] at hend
        rw [decomposeInt32_skip _ _ (by omega) hbit]
        exact ih pos count (by omega) (dvd_same hpos) hend (by omega)

theorem tiles_decomposeFrom (k pos : Nat) (hpos : 2 ^ k ∣ pos) :
    Tiles pos ((decomposeFrom L k pos).map TrunkRef.region) (pos + L % 2 ^ k) := by
  induction k generalizing pos with
  | zero =>
      show pos = pos + L % 2 ^ 0
      rw [pow_zero, Nat.mod_one, Nat.add_zero]
  | succ k ih =>
      rw [decomposeFrom]
      split_ifs with hbit
      · rw [mod_two_pow_succ_of_testBit hbit, ← Nat.add_assoc]
        refine ⟨lo_shiftRight (dvd_same hpos), ?_⟩
        have hnext := ih (pos + 1 <<< k) (dvd_next hpos)
        rwa [Nat.one_shiftLeft] at hnext ⊢
      · rw [mod_two_pow_succ_of_not_testBit hbit]
        exact ih pos (dvd_same hpos)

theorem levels_decomposeFrom (k pos : Nat) (hpos : 2 ^ k ∣ pos) :
    ((decomposeFrom L k pos).map TrunkRef.level).Pairwise (· > ·) := by
  induction k generalizing pos with
  | zero => exact List.Pairwise.nil
  | succ k ih =>
      rw [decomposeFrom]
      split_ifs
      · refine List.pairwise_cons.mpr ⟨fun level hlevel => ?_, ih _ (dvd_next hpos)⟩
        obtain ⟨t, ht, rfl⟩ := List.mem_map.mp hlevel
        exact (mem_decomposeFrom k _ (dvd_next hpos) t ht).1
      · exact ih pos (dvd_same hpos)

end loop

/-- **The cover of a prefix.** The code writes `popcount L` trunks without overflow and without losing a bit in a shift.
Their levels decrease, they lie one behind the other from position 0 to `L`, and for every list of at least `L` positions
with that highest level they are trunks which `Hpat::build` stores. -/
theorem decomposeToTrunks_cover (L : Nat) (kMax : Int) (hlo : 0 ≤ kMax) (hhi : kMax ≤ 30)
    (hL : L < 2 ^ (kMax + 1).toNat) :
    decomposeToTrunksInt32 L kMax = some (decomposeToTrunks L kMax, (popcount L : Int)) ∧
    (decomposeToTrunks L kMax).length = popcount L ∧ (popcount L : Int) ≤ kMax + 1 ∧
    ((decomposeToTrunks L kMax).map TrunkRef.level).Pairwise (· > ·) ∧
    Tiles 0 ((decomposeToTrunks L kMax).map TrunkRef.region) L ∧
    ∀ D : Nat, L ≤ D → kMax = D.log2 → ∀ t ∈ decomposeToTrunks L kMax,
      t.index < D >>> t.level ∧ t ∈ levelTrunks D kMax := by
  have hlen : (decomposeToTrunks L kMax).length = popcount L := length_cover hL
  have hmod : L % 2 ^ (kMax + 1).toNat = L := Nat.mod_eq_of_lt hL
  have hpow : (2 : Nat) ^ (kMax + 1).toNat ≤ 2 ^ 31 := Nat.pow_le_pow_right Nat.two_pos (by omega)
  refine ⟨?_, hlen, ?_, levels_decomposeFrom _ 0 (dvd_zero _), ?_, fun D hLD hK t ht => ?_⟩
  · have hrun := decomposeInt32_eq (L := L) (kMax + 1).toNat 0 0 (by omega) (dvd_zero _) (by omega) (by omega)
    rw [Nat.zero_add] at hrun
    rw [← hlen]
    exact hrun
  · have hcount : (List.range (kMax + 1).toNat).countP L.testBit ≤ (List.range (kMax + 1).toNat).length :=
      List.countP_le_length
    rw [countP_testBit_eq_popcount hL, List.length_range] at hcount
    omega
  · have htiles := tiles_decomposeFrom (L := L) (kMax + 1).toNat 0 (dvd_zero _)
    rw [hmod, Nat.zero_add] at htiles
    exact htiles
  · have hindex := index_lt_of_mem_cover hLD ht
    refine ⟨hindex, List.mem_flatMap.mpr ⟨t.level, List.mem_range.mpr (level_lt_of_mem_cover ht), ?_⟩⟩
    exact List.mem_map.mpr ⟨t.index, List.mem_range.mpr hindex, rfl⟩

theorem decomposeToTrunks_cover_thirteen :
    decomposeToTrunksInt32 13 3 = some ([⟨3, 0⟩, ⟨2, 2⟩, ⟨0, 12⟩], 3) :=
  (decomposeToTrunks_cover 13 3 (by decide) (by decide) (by decide)).1

/-! ### The trunks of `Pat` -/

/-- `(D + T - 1) / T`. -/
def numTrunksInt32 (D T : Int) : Option Int := do
  let sum ← add IsInt32 D T
  let sum ← sub IsInt32 sum 1
  div IsInt32 sum T

/-- `trunk_lo = i * T` and `trunk_hi = std::min((i + 1) * T, D)`. -/
def trunkBoundsInt32 (D T i : Int) : Option (Int × Int) := do
  let trunkLo ← mul IsInt32 i T
  let j ← add IsInt32 i 1
  let stop ← mul IsInt32 j T
  return (trunkLo, min stop D)

/-- The trunk count and the bounds of every trunk have their exact values. -/
def TrunksFit (D T : Nat) : Prop :=
  numTrunksInt32 D T = some (numTrunks D T : Int) ∧
    ∀ i < numTrunks D T, trunkBoundsInt32 D T i = some (((i * T : Nat) : Int), ((min ((i + 1) * T) D : Nat) : Int))

section trunks

variable {D T : Nat}

theorem numTrunksInt32_eq (hD : 0 < D) (hT : 0 < T) (h : D + T < 2 ^ 31) :
    numTrunksInt32 D T = some (numTrunks D T : Int) := by
  have hadd : add IsInt32 (D : Int) T = some ((D + T : Nat) : Int) := add_natCast (isInt32_natCast h)
  have hsub : sub IsInt32 ((D + T : Nat) : Int) 1 = some ((D + T - 1 : Nat) : Int) :=
    sub_natCast (y := 1) (by omega) (isInt32_natCast (by omega))
  have hdiv : div IsInt32 ((D + T - 1 : Nat) : Int) T = some (((D + T - 1) / T : Nat) : Int) := by
    apply div_natCast hT
    apply isInt32_natCast
    have := Nat.div_le_self (D + T - 1) T
    omega
  rw [numTrunksInt32, hadd, Option.bind_eq_bind, Option.bind_some, hsub, Option.bind_some, hdiv, numTrunks,
    if_pos hD]

theorem trunk_stop_le (hD : 0 < D) (hT : 0 < T) {i : Nat} (hi : i < numTrunks D T) : (i + 1) * T ≤ D + T - 1 := by
  have hlo := lo_lt hT hi
  rw [Nat.succ_mul]
  omega

theorem trunkBoundsInt32_eq (hD : 0 < D) (hT : 0 < T) (h : D + T < 2 ^ 31) {i : Nat} (hi : i < numTrunks D T) :
    trunkBoundsInt32 D T i = some (((i * T : Nat) : Int), ((min ((i + 1) * T) D : Nat) : Int)) := by
  have hstop := trunk_stop_le hD hT hi
  have hlo := lo_lt hT hi
  have hile : i ≤ i * T := Nat.le_mul_of_pos_right i hT
  have hmul : mul IsInt32 (i : Int) T = some ((i * T : Nat) : Int) := mul_natCast (isInt32_natCast (by omega))
  have hadd : add IsInt32 (i : Int) 1 = some ((i + 1 : Nat) : Int) :=
    add_natCast (y := 1) (isInt32_natCast (by omega))
  have hend : mul IsInt32 ((i + 1 : Nat) : Int) T = some (((i + 1) * T : Nat) : Int) :=
    mul_natCast (isInt32_natCast (by omega))
  rw [trunkBoundsInt32, hmul, Option.bind_eq_bind, Option.bind_some, hadd, Option.bind_some, hend, Option.bind_some,
    Nat.cast_min]
  rfl

/-- The sum in the trunk count is the only expression that can leave the range. -/
theorem trunksFit_iff (hD : 0 < D) (hT : 0 < T) : TrunksFit D T ↔ D + T < 2 ^ 31 := by
  constructor
  · intro h
    obtain ⟨hcount, -⟩ := h
    by_contra hge
    have hout : ¬ IsInt32 ((D : Int) + T) := fun hfits => by
      have := hfits.2
      omega
    have hnone : add IsInt32 (D : Int) T = none := add_of_not_range hout
    rw [numTrunksInt32, hnone, Option.bind_eq_bind, Option.bind_none] at hcount
    cases hcount
  · intro h
    exact ⟨numTrunksInt32_eq hD hT h, fun i hi => trunkBoundsInt32_eq hD hT h hi⟩

end trunks

/-- **The trunk arithmetic of `Pat` fits `int32_t` exactly if degree and trunk size together do.** -/
theorem pat_trunks_fit_iff (D : Nat) (hpos : 1 ≤ D) (minTrunkSize : Int) :
    TrunksFit D (trunkSize minTrunkSize D) ↔
      (D : Int) + min (D : Int) (max (ceilSqrt D : Int) minTrunkSize) ≤ 2 ^ 31 - 1 := by
  rw [trunksFit_iff hpos (trunkSize_pos minTrunkSize hpos), ← trunkSize_eq minTrunkSize hpos]
  omega

theorem pat_trunks_fit_iff_hundred : TrunksFit 100 (trunkSize 8 100) :=
  (pat_trunks_fit_iff 100 (by decide) 8).mpr (by omega)

/-- With the default size the arithmetic fits up to a degree of 2147437306. -/
theorem default_trunks_fit_iff {D : Nat} (hpos : 1 ≤ D) :
    TrunksFit D (trunkSize kPatTrunkSizeMin D) ↔ D ≤ 2147437306 := by
  have hsize := trunkSize_eq kPatTrunkSizeMin hpos
  have hbelow := ceilSqrt_le_iff (D := D) (m := 46340)
  have habove := ceilSqrt_le_iff (D := D) (m := 46341)
  rw [trunksFit_iff hpos (trunkSize_pos kPatTrunkSizeMin hpos)]
  unfold kPatTrunkSizeMin at *
  omega

/-- A vertex of the largest degree: the sum overflows. -/
theorem largest_trunks_not_fit : trunkSize kPatTrunkSizeMin 2147483647 = 46341 ∧
    numTrunksInt32 2147483647 46341 = none ∧ ¬ TrunksFit 2147483647 (trunkSize kPatTrunkSizeMin 2147483647) := by
  refine ⟨?_, by decide, fun h => ?_⟩
  · have hsize := trunkSize_eq kPatTrunkSizeMin (D := 2147483647) (by decide)
    have hbelow := ceilSqrt_le_iff (D := 2147483647) (m := 46340)
    have habove := ceilSqrt_le_iff (D := 2147483647) (m := 46341)
    unfold kPatTrunkSizeMin at *
    omega
  · have hle := (default_trunks_fit_iff (by decide)).mp h
    omega

end Tea
