import Mathlib.Data.Rat.Floor
import Tea.Lib.Counting
import Tea.Sampling.Rng
import Tea.Tables.AliasExact
/-!
# The resolution of an alias draw

A draw from an alias table takes two raw 64-bit outputs. `next_below` maps the first one to a bucket, each bucket having
`⌊2^64 / n⌋` or `⌈2^64 / n⌉` outputs; `next_f01` keeps 24 bits of the second one, so a threshold is rounded up to the next
multiple of `2^-24`. For independent uniform outputs and exact thresholds the two errors add up to at most
`2^-24 + n * 2^-64` in the probability of any index (`aliasDraw_resolution`).
-/

namespace Tea

open Layout Arith Counting Finset

/-! ### The two maps of a raw output -/

namespace Pcg64

section raw

variable {R : Type} [Arith R]

/-- `next_f01`, of the output of `next_u64`. -/
def f01Of (raw : BitVec 64) : R := toFloat (toFloat (ofInt ((raw >>> 40).toNat : Int)) * (1 / ofInt 16777216))

/-- `next_below`, of the output of `next_u64`. -/
def belowOf (raw : BitVec 64) (n : Nat) : Nat := ((raw.toNat * n) >>> 64) % 2 ^ 32

end raw

theorem belowOf_lt (raw : BitVec 64) {n : Nat} (hn : 0 < n) : belowOf raw n < n := by
  have hdiv : raw.toNat * n / 2 ^ 64 < n := Nat.div_lt_of_lt_mul (Nat.mul_lt_mul_of_pos_right raw.isLt hn)
  rw [belowOf, Nat.shiftRight_eq_div_pow]
  exact (Nat.mod_le _ _).trans_lt hdiv

theorem belowOf_ofNat {x n : Nat} (hx : x < 2 ^ 64) (hn : n < 2 ^ 32) : belowOf (BitVec.ofNat 64 x) n = x * n / 2 ^ 64 := by
  have hdiv : x * n / 2 ^ 64 < 2 ^ 32 := by
    refine (Nat.div_le_of_le_mul ?_).trans_lt hn
    exact Nat.mul_le_mul_right n hx.le
  rw [belowOf, BitVec.toNat_ofNat, Nat.mod_eq_of_lt hx, Nat.shiftRight_eq_div_pow, Nat.mod_eq_of_lt hdiv]

theorem f01Of_ofNat {K : Type} [Field K] [LinearOrder K] {x : Nat} (hx : x < 2 ^ 64) :
    (f01Of (BitVec.ofNat 64 x) : K) = ((x / 2 ^ 40 : Nat) : K) / ((2 ^ 24 : Nat) : K) := by
  unfold f01Of
  rw [BitVec.toNat_ushiftRight, BitVec.toNat_ofNat, Nat.mod_eq_of_lt hx, Nat.shiftRight_eq_div_pow]
  simp only [toFloat_exact, ofInt_exact, Int.cast_natCast, mul_one_div]
  norm_num

end Pcg64

open Pcg64

/-- The mean over a uniform raw output. -/
def rawMean {K : Type} [Field K] (f : BitVec 64 → K) : K := mean (2 ^ 64) fun x => f (BitVec.ofNat 64 x)

/-- How many of the raw outputs `next_below` maps to `b`. -/
def rawCount (n b : Nat) : Nat := ((range (2 ^ 64)).filter fun x => belowOf (BitVec.ofNat 64 x) n = b).card

/-- The probability that a draw with two independent uniform raw outputs returns `i`. -/
def drawProb {K : Type} [Field K] [LinearOrder K] (table : List (AliasEntry K)) (n i : Nat) : K :=
  rawMean fun raw => rawMean fun raw' => if aliasSample table (belowOf raw n) (f01Of raw') = i then 1 else 0

theorem rawCount_eq {n : Nat} (hn : n < 2 ^ 32) (b : Nat) :
    rawCount n b = ((range (2 ^ 64)).filter fun x => x * n / 2 ^ 64 = b).card :=
  congrArg Finset.card (filter_congr fun x hx => by rw [belowOf_ofNat (mem_range.mp hx) hn])

theorem rawCount_eq_or {n b : Nat} (hn : n < 2 ^ 32) (hb : b < n) :
    rawCount n b = 2 ^ 64 / n ∨ rawCount n b = 2 ^ 64 ⌈/⌉ n := by
  rw [rawCount_eq hn]
  exact card_mulShift (by positivity) (by omega) hb

/-! ### The error of a draw -/

section draw

variable {K : Type} [Field K] [LinearOrder K] [IsStrictOrderedRing K]

theorem abs_share_sub_le {N n count : Nat} (hN : 0 < N) (hn : 0 < n) (hcount : count = N / n ∨ count = N ⌈/⌉ n) :
    |(count : K) / N - 1 / n| ≤ 1 / N := by
  have hNK : (0 : K) < N := by exact_mod_cast hN
  have hnK : (0 : K) < n := by exact_mod_cast hn
  have hbounds : N ≤ n * count + n ∧ n * count ≤ N + n := by
    rcases hcount with rfl | rfl
    · have hle := Nat.mul_div_le N n
      have hlt := Nat.lt_mul_div_succ N hn
      rw [Nat.mul_succ] at hlt
      omega
    · have hge : N ≤ n * (N ⌈/⌉ n) := (ceilDiv_le_iff_le_mul hn).mp le_rfl
      have hle : n * (N ⌈/⌉ n) ≤ N + n - 1 := Nat.mul_div_le (N + n - 1) n
      omega
  have hlo : (N : K) ≤ n * count + n := by exact_mod_cast hbounds.1
  have hhi : (n : K) * count ≤ N + n := by exact_mod_cast hbounds.2
  have hdiff : (count : K) / N - 1 / n = (n * count - N) / (n * N) := by
    field_simp
  have hone : (1 : K) / N = n / (n * N) := by
    field_simp
  rw [hdiff, hone, abs_div, abs_of_pos (mul_pos hnK hNK)]
  apply div_le_div_of_nonneg_right _ (mul_pos hnK hNK).le
  rw [abs_le]
  constructor <;> linarith

variable {ws : List K}

/-- The share of bucket `b` that goes to index `i` when the coin shows heads with frequency `h`. -/
def bucketShare (table : List (AliasEntry K)) (i b : Nat) (h : K) : K :=
  h * (if b = i then 1 else 0) + (1 - h) * (if (table.getD b ⟨0, 0⟩).aliasOf = i then 1 else 0)

theorem bucketShare_mem (table : List (AliasEntry K)) (i b : Nat) {h : K} (h0 : 0 ≤ h) (h1 : h ≤ 1) :
    0 ≤ bucketShare table i b h ∧ bucketShare table i b h ≤ 1 := by
  unfold bucketShare
  split_ifs <;> constructor <;> linarith

theorem abs_bucketShare_sub_le (table : List (AliasEntry K)) (i b : Nat) (h p : K) :
    |bucketShare table i b h - bucketShare table i b p| ≤ |h - p| := by
  have hdiff : bucketShare table i b h - bucketShare table i b p =
      (h - p) * ((if b = i then 1 else 0) - (if (table.getD b ⟨0, 0⟩).aliasOf = i then 1 else 0)) := by
    unfold bucketShare
    ring
  have hsigns : |((if b = i then 1 else 0) - (if (table.getD b ⟨0, 0⟩).aliasOf = i then 1 else 0) : K)| ≤ 1 := by
    split_ifs <;> simp
  rw [hdiff, abs_mul]
  exact mul_le_of_le_one_right (abs_nonneg _) hsigns

/-- With exact thresholds and a uniform bucket, the shares are those of the weights. -/
theorem sum_bucketShare (hw : ∀ w ∈ ws, 0 ≤ w) (hsum : 0 < ws.sum) {i : Nat} (hi : i < ws.length) :
    ∑ b ∈ range ws.length, 1 / (ws.length : K) *
      bucketShare (voseTable ws) i b ((voseTable ws).getD b ⟨0, 0⟩).prob = ws.getD i 0 / ws.sum := by
  have hn : (ws.length : K) ≠ 0 := by exact_mod_cast (by omega : ws.length ≠ 0)
  have hlaw := vose_law (K := K) (g := fun a j => a * (if j = i then 1 else 0)) (fun a a' j _ _ => add_mul a a' _)
    (fun j => zero_mul _) hw hsum
  have hone : ∑ j ∈ range ws.length, ws.getD j 0 * (ws.length / ws.sum) * (if j = i then (1 : K) else 0) =
      ws.getD i 0 * (ws.length / ws.sum) := by
    rw [Finset.sum_eq_single i (fun j _ hj => by rw [if_neg hj, mul_zero])
      (fun hnot => absurd (mem_range.mpr hi) hnot), if_pos rfl, mul_one]
  rw [hone] at hlaw
  have hshare : ∀ b, bucketShare (voseTable ws) i b ((voseTable ws).getD b ⟨0, 0⟩).prob =
      entryMass (fun a j => a * (if j = i then (1 : K) else 0)) (b, (voseTable ws).getD b ⟨0, 0⟩) := fun b => rfl
  simp only [hshare]
  rw [← mul_sum, hlaw]
  field_simp

theorem abs_sum_shares_sub_le {n : Nat} (hn : 0 < n) {share : Nat → K} {F G : Nat → K} {ε δ : K}
    (hshare : ∀ b < n, |share b - 1 / n| ≤ ε) (hF : ∀ b < n, 0 ≤ F b ∧ F b ≤ 1) (hFG : ∀ b < n, |F b - G b| ≤ δ) :
    |∑ b ∈ range n, share b * F b - ∑ b ∈ range n, 1 / (n : K) * G b| ≤ δ + n * ε := by
  have hnK : (0 : K) < n := by exact_mod_cast hn
  have hterm : ∀ b ∈ range n, |share b * F b - 1 / (n : K) * G b| ≤ ε + 1 / n * δ := by
    intro b hb
    have hb := mem_range.mp hb
    obtain ⟨h0, h1⟩ := hF b hb
    have hsplit : share b * F b - 1 / (n : K) * G b = (share b - 1 / n) * F b + 1 / n * (F b - G b) := by ring
    have hfirst : |(share b - 1 / n) * F b| ≤ ε := by
      rw [abs_mul, abs_of_nonneg h0]
      exact (mul_le_of_le_one_right (abs_nonneg _) h1).trans (hshare b hb)
    have hsecond : |1 / (n : K) * (F b - G b)| ≤ 1 / n * δ := by
      rw [abs_mul, abs_of_pos (one_div_pos.mpr hnK)]
      exact mul_le_mul_of_nonneg_left (hFG b hb) (one_div_pos.mpr hnK).le
    rw [hsplit]
    exact (abs_add_le _ _).trans (add_le_add hfirst hsecond)
  rw [← sum_sub_distrib]
  calc |∑ b ∈ range n, (share b * F b - 1 / (n : K) * G b)|
      ≤ ∑ b ∈ range n, |share b * F b - 1 / (n : K) * G b| := abs_sum_le_sum_abs _ _
    _ ≤ ∑ _b ∈ range n, (ε + 1 / n * δ) := sum_le_sum hterm
    _ = δ + n * ε := by
        rw [sum_const, card_range, nsmul_eq_mul]
        field_simp
        ring

/-! ### The draw as a sum over the buckets -/

/-- How many of the raw outputs `next_f01` maps below `p`. -/
def headsCount (p : K) : Nat :=
  ((range (2 ^ 64)).filter fun x : Nat => ((x / 2 ^ 40 : Nat) : K) / ((2 ^ 24 : Nat) : K) < p).card

/-- The frequency of heads. -/
def headsShare (p : K) : K := (headsCount p : K) / (2 ^ 64 : Nat)

theorem headsShare_nonneg (p : K) : 0 ≤ headsShare p := div_nonneg (Nat.cast_nonneg _) (Nat.cast_nonneg _)

theorem headsShare_le_one (p : K) : headsShare p ≤ 1 := by
  have hcount : headsCount p ≤ 2 ^ 64 := (card_filter_le _ _).trans_eq (card_range _)
  apply div_le_one_of_le₀ _ (Nat.cast_nonneg _)
  exact_mod_cast hcount

theorem headsShare_bounds [FloorSemiring K] {p : K} (hp : 0 ≤ p) (hp1 : p ≤ 1) :
    p ≤ headsShare p ∧ headsShare p ≤ p + 1 / (2 ^ 24 : Nat) := by
  have hsides : 2 ^ 24 * 2 ^ 40 = 2 ^ 64 := by norm_num
  have h := coin_bounds (N := 2 ^ 24) (m := 2 ^ 40) (by positivity) (by positivity) hp hp1
  rw [hsides] at h
  exact h

theorem rawMean_coin (table : List (AliasEntry K)) (i b : Nat) :
    rawMean (fun raw => if aliasSample table b (f01Of raw) = i then (1 : K) else 0) =
      bucketShare table i b (headsShare (table.getD b ⟨0, 0⟩).prob) := by
  have hN : ((2 ^ 64 : Nat) : K) ≠ 0 := by positivity
  have hcoin : ∀ x ∈ range (2 ^ 64), (if aliasSample table b (f01Of (BitVec.ofNat 64 x)) = i then (1 : K) else 0) =
      if ((x / 2 ^ 40 : Nat) : K) / ((2 ^ 24 : Nat) : K) < (table.getD b ⟨0, 0⟩).prob then (if b = i then 1 else 0)
      else (if (table.getD b ⟨0, 0⟩).aliasOf = i then 1 else 0) := by
    intro x hx
    rw [f01Of_ofNat (mem_range.mp hx), aliasSample]
    simp only [lt_exact, decide_eq_true_eq]
    split_ifs <;> rfl
  have hmean := mean_ite (2 ^ 64) hN
    (fun x : Nat => ((x / 2 ^ 40 : Nat) : K) / ((2 ^ 24 : Nat) : K) < (table.getD b ⟨0, 0⟩).prob)
    (if b = i then 1 else 0) (if (table.getD b ⟨0, 0⟩).aliasOf = i then 1 else 0)
  rw [rawMean, mean, sum_congr rfl hcoin]
  exact hmean

theorem drawProb_eq (table : List (AliasEntry K)) {n : Nat} (hn : 0 < n) (i : Nat) : drawProb table n i =
    ∑ b ∈ range n, (rawCount n b : K) / (2 ^ 64 : Nat) *
      bucketShare table i b (headsShare (table.getD b ⟨0, 0⟩).prob) := by
  unfold drawProb
  simp only [rawMean_coin]
  exact mean_index (2 ^ 64) (fun x => belowOf (BitVec.ofNat 64 x) n) (fun x _ => belowOf_lt _ hn)
    fun b => bucketShare table i b (headsShare (table.getD b ⟨0, 0⟩).prob)

end draw

/-- **The resolution of a draw.** Bucket indices are in range and about equally frequent, and a draw from the table of
any weights returns an index with its share of the weights up to the two roundings. -/
theorem aliasDraw_resolution {K : Type} [Field K] [LinearOrder K] [IsStrictOrderedRing K] [FloorSemiring K] :
    (∀ n, 1 ≤ n → n < 2 ^ 32 → (∀ raw, belowOf raw n < n) ∧
      ∀ b < n, rawCount n b = 2 ^ 64 / n ∨ rawCount n b = 2 ^ 64 ⌈/⌉ n) ∧
    ∀ (ws : List K), ws.length < 2 ^ 32 → (∀ w ∈ ws, 0 ≤ w) → 0 < ws.sum → ∀ (out : List (AliasEntry K)),
      out.length = ws.length → ∀ (scratch : AliasBuildScratch K), ∀ i < ws.length,
        |drawProb (buildAliasInto out ws scratch).1 ws.length i - ws.getD i 0 / ws.sum| ≤
          1 / 2 ^ 24 + ws.length * (1 / 2 ^ 64) := by
  refine ⟨fun n hpos hn => ⟨fun raw => belowOf_lt raw hpos, fun b hb => rawCount_eq_or hn hb⟩,
    fun ws hlen hw hsum out hout scratch i hi => ?_⟩
  have hpos : 0 < ws.length := by omega
  have hprob : ∀ b < ws.length, 0 ≤ ((voseTable ws).getD b ⟨0, 0⟩).prob ∧ ((voseTable ws).getD b ⟨0, 0⟩).prob ≤ 1 :=
    fun b hb => prob_mem_unit hw hsum.le hb
  have hshare : ∀ b < ws.length, |(rawCount ws.length b : K) / (2 ^ 64 : Nat) - 1 / ws.length| ≤ 1 / (2 ^ 64 : Nat) :=
    fun b hb => abs_share_sub_le (by positivity) hpos (rawCount_eq_or hlen hb)
  have hmem : ∀ b < ws.length, 0 ≤ bucketShare (voseTable ws) i b (headsShare ((voseTable ws).getD b ⟨0, 0⟩).prob) ∧
      bucketShare (voseTable ws) i b (headsShare ((voseTable ws).getD b ⟨0, 0⟩).prob) ≤ 1 :=
    fun b _ => bucketShare_mem _ _ _ (headsShare_nonneg _) (headsShare_le_one _)
  have hcoin : ∀ b < ws.length, |bucketShare (voseTable ws) i b (headsShare ((voseTable ws).getD b ⟨0, 0⟩).prob) -
      bucketShare (voseTable ws) i b ((voseTable ws).getD b ⟨0, 0⟩).prob| ≤ 1 / (2 ^ 24 : Nat) := by
    intro b hb
    obtain ⟨h0, h1⟩ := hprob b hb
    obtain ⟨hlo, hhi⟩ := headsShare_bounds h0 h1
    apply (abs_bucketShare_sub_le _ _ _ _ _).trans
    rw [abs_of_nonneg (sub_nonneg.mpr hlo)]
    linarith
  have herror := abs_sum_shares_sub_le hpos hshare hmem hcoin
  rw [← drawProb_eq _ hpos, sum_bucketShare hw hsum hi] at herror
  rw [buildAliasInto_eq hout]
  exact herror.trans_eq (by norm_num)

theorem aliasDraw_resolution_two : |drawProb (buildAliasInto [⟨0, 0⟩, ⟨0, 0⟩] [1, 3] {}).1 2 1 - 3 / 4| ≤
    (1 / 2 ^ 24 + 2 * (1 / 2 ^ 64) : Rat) := by
  have h := aliasDraw_resolution.2 [1, (3 : Rat)] (by decide) (by simp) (by norm_num) [⟨0, 0⟩, ⟨0, 0⟩] rfl {} 1 (by decide)
  norm_num at h ⊢
  exact h

end Tea
