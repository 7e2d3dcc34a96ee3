import Mathlib.Probability.Distributions.Uniform
import Tea.Lib.Tape
import Tea.Sampling.Law
import Tea.Sampling.Resolution
/-!
# The law of a step on 64-bit words

`Pcg64` answers every request from one 64-bit output (`Pcg64.run_eq_tape`). If the outputs are uniform and independent, its
doubles resolve probabilities up to `2^-53`, its floats up to `2^-24` and its indices up to `2^-64`
(`Pcg64.decoder_resolution`). A step of either sampler takes at most three outputs, and its law is within
`stepError D` of the exact one, where `D` is the degree of the vertex (`patChoice_resolves`, `hpatChoice_resolves`).
-/

namespace Tea

open Layout Arith Laws
open scoped ENNReal

namespace Pcg64

/-! ### The words of the generator -/

/-- `next_u01`, of the output of `next_u64`. -/
def u01Of {R : Type} [Arith R] (raw : BitVec 64) : R := ofInt ((raw >>> 11).toNat : Int) * (1 / ofInt 9007199254740992)

/-- The answers of the generator. -/
def decoder (R : Type) [Arith R] : Decoder (BitVec 64) R := ⟨u01Of, f01Of, belowOf⟩

/-- The first `n` outputs. -/
def outputs (self : Pcg64) (n : Nat) : List (BitVec 64) :=
  (List.range n).map fun i => (nextU64 ((fun s => (nextU64 s).2)^[i] self)).1

theorem run_eq_tape {R α : Type} [Arith R] {d : Draw R α} {n : Nat} (h : d.AtMost n) (self : Pcg64) :
    (d.run (generator R).toGenerator self).1 = (d.run (decoder R).generator (self.outputs n)).1 :=
  Draw.run_eq_tape (fun _ => rfl) (fun _ => rfl) (fun _ _ => rfl) h self

/-- A uniform output. -/
noncomputable def rawWord : PMF (BitVec 64) := (PMF.uniformOfFintype (Fin (2 ^ 64))).map BitVec.ofFin

end Pcg64

theorem mean_uniform (N : Nat) [NeZero N] (p : Nat → Prop) [DecidablePred p] :
    mean (PMF.uniformOfFintype (Fin N)) (fun x => if p x then 1 else 0) =
      ENNReal.ofReal (((Finset.range N).filter p).card / N) := by
  have hcount : ∑ x : Fin N, (if p x then 1 else 0 : ℝ≥0∞) = ((Finset.range N).filter p).card := by
    rw [← Finset.sum_range fun x => if p x then (1 : ℝ≥0∞) else 0, Finset.sum_boole]
  have hN : (0 : ℝ) < N := by exact_mod_cast NeZero.pos N
  rw [mean, tsum_fintype]
  simp only [PMF.uniformOfFintype_apply, Fintype.card_fin]
  rw [← Finset.mul_sum, hcount, ENNReal.ofReal_div_of_pos hN, ENNReal.ofReal_natCast, ENNReal.ofReal_natCast,
    ENNReal.div_eq_inv_mul]

namespace Pcg64

open Counting

theorem mean_rawWord (p : BitVec 64 → Prop) [DecidablePred p] :
    mean rawWord (fun x => if p x then 1 else 0) =
      ENNReal.ofReal (((Finset.range (2 ^ 64)).filter fun x => p (BitVec.ofNat 64 x)).card / (2 ^ 64 : Nat)) := by
  rw [rawWord, mean_map, ← mean_uniform (2 ^ 64) fun x => p (BitVec.ofNat 64 x)]
  congr 1
  funext x
  rw [show BitVec.ofFin x = BitVec.ofNat 64 x.val from BitVec.eq_of_toNat_eq (by simp)]

theorem u01Of_ofNat {K : Type} [Field K] [LinearOrder K] {x : Nat} (hx : x < 2 ^ 64) :
    (u01Of (BitVec.ofNat 64 x) : K) = ((x / 2 ^ 11 : Nat) : K) / ((2 ^ 53 : Nat) : K) := by
  unfold u01Of
  rw [BitVec.toNat_ushiftRight, BitVec.toNat_ofNat, Nat.mod_eq_of_lt hx, Nat.shiftRight_eq_div_pow]
  simp only [ofInt_exact, Int.cast_natCast, mul_one_div]
  norm_num

theorem coins_of_ofNat {g : BitVec 64 → ℝ} {N m : Nat} (hN : 0 < N) (hm : 0 < m) (hsides : N * m = 2 ^ 64)
    (hg : ∀ x < 2 ^ 64, g (BitVec.ofNat 64 x) = ((x / m : Nat) : ℝ) / (N : ℝ)) :
    Coins rawWord g (ENNReal.ofReal (1 / N)) := by
  intro p hp hp1
  have hfilter : ((Finset.range (2 ^ 64)).filter fun x => g (BitVec.ofNat 64 x) < p) =
      (Finset.range (2 ^ 64)).filter fun x => ((x / m : Nat) : ℝ) / (N : ℝ) < p :=
    Finset.filter_congr fun x hx => by rw [hg x (Finset.mem_range.mp hx)]
  have hbounds := coin_bounds hN hm hp hp1
  rw [hsides, ← hfilter] at hbounds
  obtain ⟨hlo, hhi⟩ := hbounds
  have hheads := mean_rawWord fun x => g x < p
  constructor
  · rw [hheads, ← ENNReal.ofReal_add hp (by positivity)]
    exact ENNReal.ofReal_le_ofReal hhi
  · have hle : ENNReal.ofReal p ≤ mean rawWord fun x => if g x < p then 1 else 0 := by
      rw [hheads]
      exact ENNReal.ofReal_le_ofReal hlo
    apply (ENNReal.add_le_add_iff_left (ENNReal.ofReal_ne_top (r := p))).mp
    calc ENNReal.ofReal p + mean rawWord (fun x => if g x < p then 0 else 1)
        ≤ 1 := (add_le_add_left hle _).trans_eq (mean_heads_add_tails rawWord g p)
      _ = ENNReal.ofReal p + ENNReal.ofReal (1 - p) := by
        rw [← ENNReal.ofReal_add hp (sub_nonneg.mpr hp1), add_sub_cancel, ENNReal.ofReal_one]

/-- **The resolution of the generator.** -/
theorem decoder_resolution : (decoder ℝ).Resolution rawWord (2 ^ 32) (ENNReal.ofReal (1 / (2 ^ 53 : Nat)))
    (ENNReal.ofReal (1 / (2 ^ 24 : Nat))) (ENNReal.ofReal (1 / (2 ^ 64 : Nat))) where
  u01_mem := by
    intro x
    obtain ⟨y, hy, rfl⟩ : ∃ y < 2 ^ 64, BitVec.ofNat 64 y = x := ⟨x.toNat, x.isLt, by simp⟩
    show 0 ≤ u01Of _ ∧ u01Of _ < 1
    have hlt : ((y / 2 ^ 11 : Nat) : ℝ) < ((2 ^ 53 : Nat) : ℝ) := by
      exact_mod_cast Nat.div_lt_of_lt_mul (by omega)
    rw [u01Of_ofNat hy]
    exact ⟨by positivity, (div_lt_one (by positivity)).mpr hlt⟩
  u01_coins := coins_of_ofNat (by positivity) (m := 2 ^ 11) (by positivity) (by norm_num) fun x hx => u01Of_ofNat hx
  f01_coins := coins_of_ofNat (by positivity) (m := 2 ^ 40) (by positivity) (by norm_num) fun x hx => f01Of_ofNat hx
  below_lt := fun x n hn => belowOf_lt x hn
  below := by
    intro n i hi hn
    have hpos : 0 < n := by omega
    have hshare := (abs_le.mp (abs_share_sub_le (K := ℝ) (by positivity : 0 < 2 ^ 64) hpos (rawCount_eq_or hn hi))).2
    have hcast : (1 : ℝ≥0∞) / n = ENNReal.ofReal (1 / n) := by
      rw [ENNReal.ofReal_div_of_pos (by exact_mod_cast hpos), ENNReal.ofReal_one, ENNReal.ofReal_natCast]
    show mean rawWord (fun x => if belowOf x n = i then 1 else 0) ≤ _
    rw [mean_rawWord fun x => belowOf x n = i, hcast, ← ENNReal.ofReal_add (by positivity) (by positivity)]
    apply ENNReal.ofReal_le_ofReal
    have hdef : ((Finset.range (2 ^ 64)).filter fun x => belowOf (BitVec.ofNat 64 x) n = i).card = rawCount n i := rfl
    rw [hdef]
    linarith

end Pcg64

/-! ### Draws -/

open Pcg64

/-- A program whose law on the outputs of the generator is off by `η` at most. -/
abbrev ResolvesRaw {α : Type} (η : ℝ≥0∞) (d : Draw ℝ α) : Prop := Draw.Resolves rawWord (decoder ℝ) η d

/-- The error of a draw from a table of `n` entries. -/
noncomputable def drawError (n : Nat) : ℝ≥0∞ :=
  n * ENNReal.ofReal (1 / (2 ^ 64 : Nat)) + ENNReal.ofReal (1 / (2 ^ 24 : Nat))

/-- The error of a step at a vertex of degree `n`. -/
noncomputable def stepError (n : Nat) : ℝ≥0∞ := n * ENNReal.ofReal (1 / (2 ^ 53 : Nat)) + drawError n

theorem drawError_mono {m n : Nat} (h : m ≤ n) : drawError m ≤ drawError n :=
  add_le_add_left (mul_le_mul_left (Nat.cast_le.mpr h) _) _

theorem stepError_mono {m n : Nat} (h : m ≤ n) : stepError m ≤ stepError n :=
  add_le_add (mul_le_mul_left (Nat.cast_le.mpr h) _) (drawError_mono h)

theorem drawError_le_stepError (n : Nat) : drawError n ≤ stepError n := le_add_self

theorem aliasDraw_resolves (ws : List ℝ) (hw : ∀ w ∈ ws, 0 ≤ w) (hpos : 0 < ws.length) (hlen : ws.length < 2 ^ 32) :
    ResolvesRaw (drawError ws.length) (aliasDraw (voseTable ws) ws.length) := by
  apply Draw.resolves_index decoder_resolution hpos hlen
  intro b hb
  obtain ⟨hp, hp1⟩ := prob_mem_unit hw (List.sum_nonneg hw) hb
  have hcoin := Draw.resolves_coin decoder_resolution hp hp1 (fun c => pure (aliasSample (voseTable ws) b c)) (A := pure b)
    (B := pure ((voseTable ws).getD b ⟨0, 0⟩).aliasOf) (fun c => by
      unfold aliasSample
      simp only [lt_exact, decide_eq_true_eq]
      exact apply_ite pure _ _ _) (Draw.resolves_pure b) (Draw.resolves_pure _)
  rwa [mul_zero, mul_zero, add_zero, add_zero] at hcoin

theorem itsPick_resolves {ws : List ℝ} (hw : ∀ w ∈ ws, 0 ≤ w) (hsum : 0 < ws.sum) :
    ResolvesRaw (ws.length * ENNReal.ofReal (1 / (2 ^ 53 : Nat)))
      (Draw.u01 fun u => (pure (some (itsPick (cumsum 0 ws) ws.length (u * ws.sum))) : Draw ℝ (Option Int))) := by
  have h := Draw.resolves_steps decoder_resolution (sum_take_monotone hw) (m := ws.length) hsum (by simp) (by simp)
    (fun r => (pure (some (itsPick (cumsum 0 ws) ws.length r)) : Draw ℝ (Option Int)))
    (fun j => pure (some (j : Int))) (fun j hj r hlo hhi => by rw [itsPick_eq hw rfl hj hlo hhi])
    (fun j _ _ => Draw.resolves_pure _)
  rwa [add_zero] at h

/-! ### `sample_pat` -/

section pat

variable {P : Type} {graph : TemporalGraph} {bias : Bias ℝ P} {minTrunkSize : Int} (hg : graph.WellFormed) {u : Nat}
  (hu : u < graph.numVertices) {tPrev : Int} {w : List ℝ} (hlen : w.length = graph.degree u)
  (hrestrict : bias.RestrictsOnSlices (graph.timestampsOf u) w) (hw : ∀ x ∈ w, 0 ≤ x)

/-- The draw from group `j`. -/
noncomputable def patPiece (graph : TemporalGraph) (minTrunkSize : Int) (w : List ℝ) (u : Nat) (tPrev : Int) (j : Nat) :
    Draw ℝ (Option Int) :=
  let T := Pat.vertexTrunkSize graph minTrunkSize u
  if j < fullTrunks graph minTrunkSize u tPrev then
    (fun pos : Nat => some ((j : Int) * (T : Nat) + pos)) <$> aliasDraw (voseTable (Pat.trunkWeights w T j)) T
  else pure (some ((fullSize graph minTrunkSize u tPrev + (j - fullTrunks graph minTrunkSize u tPrev) : Nat) : Int))

omit hg hu hlen hrestrict hw in
theorem mem_patGroups {ws : List ℝ} (hws : ws ∈ patGroups graph minTrunkSize w u tPrev) {x : ℝ} (hx : x ∈ ws) :
    x ∈ w := by
  rcases List.mem_append.mp hws with hws | hws
  · obtain ⟨k, -, rfl⟩ := List.mem_map.mp hws
    exact mem_of_mem_slice hx
  · obtain ⟨y, hy, rfl⟩ := List.mem_map.mp hws
    rw [List.mem_singleton.mp hx]
    exact mem_of_mem_slice hy

include hg hu hlen hrestrict hw

theorem patPick_eq_piece {j : Nat} (hj : j < (fullTotals graph bias minTrunkSize u tPrev ++
      partialWeights graph bias minTrunkSize u tPrev).length) {r : ℝ}
    (hlo : ((fullTotals graph bias minTrunkSize u tPrev ++ partialWeights graph bias minTrunkSize u tPrev).take j).sum ≤ r)
    (hhi : r < ((fullTotals graph bias minTrunkSize u tPrev ++
      partialWeights graph bias minTrunkSize u tPrev).take (j + 1)).sum) :
    patPick graph bias minTrunkSize u tPrev r = patPiece graph minTrunkSize w u tPrev j := by
  have hn : (fullTotals graph bias minTrunkSize u tPrev).length = fullTrunks graph minTrunkSize u tPrev :=
    length_fullTotals hg hu
  have hm : (partialWeights graph bias minTrunkSize u tPrev).length =
      graph.candidateSetLen u tPrev - fullSize graph minTrunkSize u tPrev := length_partialWeights hg hu
  rw [List.length_append, hn, hm] at hj
  unfold patPiece
  rcases Nat.lt_or_ge j (fullTrunks graph minTrunkSize u tPrev) with hfull | hpart
  · have htotals : ∀ total ∈ fullTotals graph bias minTrunkSize u tPrev, 0 ≤ total := by
      intro total htotal
      rw [fullTotals, vertexWeights_eq hg hu hlen hrestrict] at htotal
      obtain ⟨i, -, rfl⟩ := List.mem_map.mp (List.mem_of_mem_take htotal)
      rw [sum_exact]
      exact List.sum_nonneg fun x hx => hw x (mem_of_mem_slice hx)
    rw [List.take_append_of_le_length (by omega)] at hlo hhi
    have hbelow : r < (fullTotals graph bias minTrunkSize u tPrev).sum := by
      have h := sum_take_monotone htotals (by omega : j + 1 ≤ (fullTotals graph bias minTrunkSize u tPrev).length)
      simp only [List.take_length] at h
      exact hhi.trans_le h
    obtain ⟨-, hsize, hview⟩ := fullTrunk_view bias hg hu hfull
    rw [vertexWeights_eq hg hu hlen hrestrict] at hsize hview
    rw [if_pos hfull, patPick, if_pos (by rw [sum_exact]; simpa using hbelow), itsPick_eq htotals hn hfull hlo hhi]
    dsimp only
    rw [Int.toNat_natCast, hview, length_voseTable, hsize]
    rfl
  · obtain ⟨i, rfl⟩ := Nat.exists_eq_add_of_le hpart
    rw [← hn, List.take_length_add_append, List.sum_append] at hlo
    rw [← hn, Nat.add_assoc, List.take_length_add_append, List.sum_append] at hhi
    rw [if_neg (by omega), patPick_single hg hu hrestrict hw (by omega) hlo hhi, Nat.add_sub_cancel_left]

/-- **A step of `sample_pat`** at a vertex of degree `D` is off by `stepError D` at most. -/
theorem patChoice_resolves (hD : graph.degree u < 2 ^ 32) (hS : candidateTotal graph w u tPrev ≠ 0) :
    ResolvesRaw (stepError (graph.degree u))
      (patChoice graph (Pat.tables graph bias minTrunkSize) bias u tPrev) := by
  have hG : 0 < graph.candidateSetLen u tPrev := candidateSetLen_pos hS
  have hpos : 0 < candidateTotal graph w u tPrev := (candidateTotal_nonneg hw graph u tPrev).lt_of_ne' hS
  have htotal : patTotal graph bias minTrunkSize u tPrev = candidateTotal graph w u tPrev :=
    patTotal_exact hg hu hlen hrestrict
  have hT : 0 < Pat.vertexTrunkSize graph minTrunkSize u :=
    Pat.vertexTrunkSize_pos (hg.degree_pos_of_candidate hu hG)
  have hfit : fullSize graph minTrunkSize u tPrev ≤ graph.candidateSetLen u tPrev := fullSize_le
  have hle := hg.candidateSetLen_le hu tPrev
  have hfew : fullTrunks graph minTrunkSize u tPrev ≤ fullSize graph minTrunkSize u tPrev := Nat.le_mul_of_pos_right _ hT
  set totals := fullTotals graph bias minTrunkSize u tPrev ++ partialWeights graph bias minTrunkSize u tPrev
    with htotals
  have hcount : totals.length ≤ graph.degree u := by
    rw [htotals, List.length_append, length_fullTotals hg hu, length_partialWeights hg hu]
    omega
  have hnonneg : ∀ total ∈ totals, 0 ≤ total := by
    rw [htotals, ← sums_patGroups hg hu hlen hrestrict]
    intro total hmem
    obtain ⟨ws, hws, rfl⟩ := List.mem_map.mp hmem
    exact List.sum_nonneg fun x hx => hw x (mem_patGroups hws hx)
  have hend : (totals.take totals.length).sum = candidateTotal graph w u tPrev := by
    rw [List.take_length, htotals, List.sum_append, ← htotal, patTotal, sum_exact, sum_exact]
  rw [patChoice_tables hg hu hG, htotal, if_neg (by simpa using hpos), Draw.nextU01_bind]
  refine Draw.Resolves.mono (Draw.resolves_steps decoder_resolution (sum_take_monotone hnonneg) hpos (by simp) hend
    (patPick graph bias minTrunkSize u tPrev) (patPiece graph minTrunkSize w u tPrev)
    (η := drawError (graph.degree u)) (fun j hj r hlo hhi => patPick_eq_piece hg hu hlen hrestrict hw hj hlo hhi)
    fun j hj _ => ?_) (add_le_add_left (mul_le_mul_left (Nat.cast_le.mpr hcount) _) _)
  unfold patPiece
  dsimp only
  split_ifs with hfull
  · obtain ⟨hfits, hsize, -⟩ := fullTrunk_view bias hg hu hfull
    rw [vertexWeights_eq hg hu hlen hrestrict] at hsize
    have hsmall : Pat.vertexTrunkSize graph minTrunkSize u ≤ graph.degree u := by
      rw [Nat.succ_mul] at hfits
      omega
    have hdraw := aliasDraw_resolves (Pat.trunkWeights w (Pat.vertexTrunkSize graph minTrunkSize u) j)
      (fun x hx => hw x (mem_of_mem_slice hx)) (by rwa [hsize]) (by omega)
    rw [hsize] at hdraw
    exact (hdraw.mono (drawError_mono hsmall)).map _
  · exact (Draw.resolves_pure _).mono zero_le

end pat

/-! ### `sample_hpat` -/

theorem length_cover_le {L : Nat} {kMax : Int} (hL : L < 2 ^ (kMax + 1).toNat) :
    (decomposeToTrunks L kMax).length ≤ L := by
  have hsum := sum_cover hL fun _ => 1
  simp only [Finset.sum_const, Finset.card_range, smul_eq_mul, mul_one] at hsum
  have h := List.length_le_sum_of_one_le ((decomposeToTrunks L kMax).map fun t => 2 ^ t.level) fun n hn => by
    obtain ⟨t, -, rfl⟩ := List.mem_map.mp hn
    exact Nat.one_le_two_pow
  rwa [List.length_map, hsum] at h

section hpat

variable {P : Type} {graph : TemporalGraph} {bias : Bias ℝ P} {aux : AuxIndex} (hg : graph.WellFormed) {u : Nat}
  (hu : u < graph.numVertices) {tPrev : Int} {w : List ℝ} (hlen : w.length = graph.degree u)
  (hrestrict : bias.RestrictsOnPrefixes (graph.timestampsOf u) w) (hw : ∀ x ∈ w, 0 ≤ x)

include hg hu hlen hrestrict hw

theorem hpatChoice_resolves_soloFull (hD : graph.degree u < 2 ^ 32) (hsolo : soloOfDegree (graph.degree u) = true)
    (hfull : graph.candidateSetLen u tPrev = graph.degree u) (hG : 0 < graph.candidateSetLen u tPrev) :
    ResolvesRaw (stepError (graph.degree u)) (hpatChoice graph (Hpat.tables graph bias aux) bias u tPrev) := by
  have hdraw := aliasDraw_resolves w hw (by omega) (by rwa [hlen])
  rw [hpatChoice_soloFull hg hu hsolo hG hfull, allWeights_eq hg hu hlen hrestrict]
  rw [hlen] at hdraw ⊢
  exact (hdraw.mono (drawError_le_stepError _)).map _

theorem hpatChoice_resolves_soloPartial (hsolo : soloOfDegree (graph.degree u) = true)
    (hpart : graph.candidateSetLen u tPrev ≠ graph.degree u) (hS : 0 < candidateTotal graph w u tPrev) :
    ResolvesRaw (stepError (graph.degree u)) (hpatChoice graph (Hpat.tables graph bias aux) bias u tPrev) := by
  have hle := hg.candidateSetLen_le hu tPrev
  have htotal : (slice w 0 (graph.candidateSetLen u tPrev)).sum = candidateTotal graph w u tPrev :=
    sum_candidates hg hu hlen
  have hsize : (slice w 0 (graph.candidateSetLen u tPrev)).length = graph.candidateSetLen u tPrev :=
    length_slice (by omega)
  have hpick := itsPick_resolves (fun x hx => hw x (mem_of_mem_slice hx)) (by rwa [htotal])
  rw [hsize, htotal] at hpick
  rw [hpatChoice_soloPartial hg hu hsolo (candidateSetLen_pos hS.ne') hpart, candidateWeights_eq hg hu hrestrict,
    sum_exact, htotal, if_neg (by simpa using hS), Draw.nextU01_bind]
  exact hpick.mono ((mul_le_mul_left (Nat.cast_le.mpr hle) _).trans le_self_add)

theorem hpatChoice_resolves_hierarchical (haux : ServesCovers graph aux) (hD : graph.degree u < 2 ^ 32)
    (hsolo : soloOfDegree (graph.degree u) = false) (hS : 0 < candidateTotal graph w u tPrev) :
    ResolvesRaw (stepError (graph.degree u)) (hpatChoice graph (Hpat.tables graph bias aux) bias u tPrev) := by
  have hG : 0 < graph.candidateSetLen u tPrev := candidateSetLen_pos hS.ne'
  have hle := hg.candidateSetLen_le hu tPrev
  have htotal : hpatTotal graph bias u tPrev = candidateTotal graph w u tPrev :=
    hpatTotal_exact hg hu hlen hrestrict
  rw [hpatTotal, if_neg (by simp [hsolo]), sum_exact] at htotal
  have hnonneg : ∀ total ∈ coverTotals graph bias u tPrev, 0 ≤ total := by
    rw [coverTotals_eq hg hu hlen hrestrict, List.map_map]
    intro total hmem
    obtain ⟨t, -, rfl⟩ := List.mem_map.mp hmem
    exact List.sum_nonneg fun x hx => hw x (mem_of_mem_slice hx)
  have hcount : (coverTotals graph bias u tPrev).length ≤ graph.degree u := by
    rw [coverTotals, List.length_map]
    exact (length_cover_le (candidateSetLen_lt_levels hg hu hsolo)).trans hle
  rw [hpatChoice_hierarchical hg hu haux hsolo hG, sum_exact, htotal, if_neg (by simpa using hS), Draw.nextU01_bind]
  refine Draw.Resolves.mono (Draw.resolves_steps decoder_resolution (sum_take_monotone hnonneg)
    (m := (coverTotals graph bias u tPrev).length) hS (by simp) (by rw [List.take_length, htotal])
    (fun r => (do
      let t := coverPick graph bias u tPrev r
      let ws := Hpat.trunkWeights (vertexWeights graph bias u) t
      let pos ← aliasDraw (voseTable ws) ws.length
      return some ((t.lo + pos : Nat) : Int)))
    (fun j => (do
      let t := (candidateCover graph u tPrev).getD j ⟨0, 0⟩
      let ws := Hpat.trunkWeights w t
      let pos ← aliasDraw (voseTable ws) ws.length
      return some ((t.lo + pos : Nat) : Int)))
    (η := drawError (graph.degree u)) (fun j hj r hlo hhi => ?_) fun j hj hrise => ?_)
    (add_le_add_left (mul_le_mul_left (Nat.cast_le.mpr hcount) _) _)
  · have hj : j < (candidateCover graph u tPrev).length := by rwa [coverTotals, List.length_map] at hj
    rw [coverPick_eq hg hu hlen hrestrict hw hj hlo hhi, allWeights_eq hg hu hlen hrestrict,
      List.getD_eq_getElem _ _ hj]
  · have hj : j < (candidateCover graph u tPrev).length := by rwa [coverTotals, List.length_map] at hj
    rw [List.getD_eq_getElem _ _ hj]
    obtain ⟨hhi, hsize, -, -⟩ := cover_trunk bias aux hg hu hsolo hG (List.getElem_mem hj)
    rw [allWeights_eq hg hu hlen hrestrict] at hsize
    have hsmall : 2 ^ (candidateCover graph u tPrev)[j].level ≤ graph.degree u := by
      rw [TrunkRef.hi_eq] at hhi
      omega
    have hdraw := aliasDraw_resolves (Hpat.trunkWeights w (candidateCover graph u tPrev)[j])
      (fun x hx => hw x (mem_of_mem_slice hx)) (by rw [hsize]; positivity) (by omega)
    dsimp only
    rw [hsize] at hdraw ⊢
    exact (hdraw.mono (drawError_mono hsmall)).map fun pos => _

/-- **A step of `sample_hpat`** at a vertex of degree `D` is off by `stepError D` at most. -/
theorem hpatChoice_resolves (haux : ServesCovers graph aux) (hD : graph.degree u < 2 ^ 32)
    (hS : candidateTotal graph w u tPrev ≠ 0) :
    ResolvesRaw (stepError (graph.degree u)) (hpatChoice graph (Hpat.tables graph bias aux) bias u tPrev) := by
  have hpos : 0 < candidateTotal graph w u tPrev := (candidateTotal_nonneg hw graph u tPrev).lt_of_ne' hS
  by_cases hsolo : soloOfDegree (graph.degree u) = true
  · by_cases hfull : graph.candidateSetLen u tPrev = graph.degree u
    · exact hpatChoice_resolves_soloFull hg hu hlen hrestrict hw hD hsolo hfull (candidateSetLen_pos hS)
    · exact hpatChoice_resolves_soloPartial hg hu hlen hrestrict hw hsolo hfull hpos
  · exact hpatChoice_resolves_hierarchical hg hu hlen hrestrict hw haux hD (by simpa using hsolo) hpos

end hpat

/-! ### Counting outputs -/

section count

variable {R P : Type} [Arith R]

theorem aliasDraw_atMost (av : List (AliasEntry R)) (n : Nat) : (aliasDraw av n).AtMost 2 :=
  ⟨by decide, fun _ => ⟨by decide, fun _ => trivial⟩⟩

theorem patChoice_atMost (graph : TemporalGraph) (pat : Pat R P) (bias : Bias R P) (u : Nat) (tPrev : Int) :
    (patChoice graph pat bias u tPrev).AtMost 3 := by
  unfold patChoice
  dsimp only
  generalize (if 0 < graph.candidateSetLen u tPrev / pat.trunkSizeOf u then (pat.trunkCumsumsOf u).getD
    (graph.candidateSetLen u tPrev / pat.trunkSizeOf u - 1) 0 else 0) = fullTotal
  split_ifs
  · exact Draw.atMost_pure _ _
  · exact Draw.atMost_pure _ _
  · apply Draw.nextU01_atMost.bind (n := 2)
    intro u01
    split_ifs
    · exact (aliasDraw_atMost _ _).bind (n := 0) fun pos => Draw.atMost_pure _ _
    · exact Draw.atMost_pure _ _

theorem hpatChoice_atMost (graph : TemporalGraph) (hpat : Hpat R P) (bias : Bias R P) (u : Nat) (tPrev : Int) :
    (hpatChoice graph hpat bias u tPrev).AtMost 3 := by
  unfold hpatChoice
  dsimp only
  generalize (if hpat.auxIndex.active = true then hpat.auxIndex.coverFor u (graph.candidateSetLen u tPrev)
    else decomposeToTrunks (graph.candidateSetLen u tPrev) (hpat.kMaxOf u)) = cover
  split_ifs
  · exact Draw.atMost_pure _ _
  · exact ((aliasDraw_atMost _ _).map _).mono (by decide)
  · exact Draw.atMost_pure _ _
  · exact Draw.nextU01_atMost.bind (n := 2) fun u01 => Draw.atMost_pure _ _
  · exact Draw.atMost_pure _ _
  · exact Draw.nextU01_atMost.bind (n := 2) fun u01 =>
      (aliasDraw_atMost _ _).bind (n := 0) fun pos => Draw.atMost_pure _ _

end count

end Tea
