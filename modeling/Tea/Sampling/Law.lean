import Mathlib.Data.ENNReal.BigOperators
import Tea.Lib.Expect
import Tea.Sampling.Choice
import Tea.Tables.AliasExact
/-!
# The law of a step

In exact arithmetic, with uniform draws, both samplers choose candidate `i` with probability `wᵢ / S`, where `S` is the
total weight of the candidates: `patChoice_law` and `hpatChoice_law` give the expectation of an arbitrary function of the
choice.

A draw that picks among groups of candidates by running sums and then inside the group has the same law as one that picks
among the candidates directly (`mixture`). The groups are the full trunks and the single edges behind them in one
sampler, the trunks of the cover in the other.
-/

namespace Tea

open Layout Search Arith
open scoped ENNReal

/-! ### Draws from tables and running sums -/

section draws

variable {ws : List ℝ} (hw : ∀ w ∈ ws, 0 ≤ w)

include hw

theorem getD_nonneg (i : Nat) : 0 ≤ ws.getD i 0 := by
  rcases Nat.lt_or_ge i ws.length with hi | hi
  · rw [List.getD_eq_getElem _ _ hi]
    exact hw _ (List.getElem_mem hi)
  · rw [List.getD_eq_default _ _ hi]

theorem sum_take_monotone : Monotone fun j => (ws.take j).sum := by
  refine monotone_nat_of_le_succ fun j => ?_
  rcases Nat.lt_or_ge j ws.length with hj | hj
  · rw [List.take_succ_eq_append_getElem hj, List.sum_append, List.sum_singleton]
    exact le_add_of_nonneg_right (hw _ (List.getElem_mem hj))
  · rw [List.take_of_length_le hj, List.take_of_length_le (by omega)]

omit hw in
theorem sum_take_succ_sub {j : Nat} (hj : j < ws.length) :
    (ws.take (j + 1)).sum - (ws.take j).sum = ws.getD j 0 := by
  rw [List.take_succ_eq_append_getElem hj, List.sum_append, List.sum_singleton, List.getD_eq_getElem _ _ hj,
    add_sub_cancel_left]

theorem itsPick_eq {n j : Nat} (hlen : ws.length = n) (hj : j < n) {r : ℝ} (hlo : (ws.take j).sum ≤ r)
    (hhi : r < (ws.take (j + 1)).sum) : itsPick (cumsum 0 ws) n r = j := by
  have hmono := sum_take_monotone hw
  have hfull : (cumsum 0 ws).take n = cumsum 0 ws := List.take_of_length_le (by rw [length_cumsum, hlen])
  have hbound : upperBound lt (cumsum 0 ws) r = j := by
    refine upperBound_eq lt _ r j (by rw [length_cumsum]; omega) (fun i hi hij => ?_) (fun i hi hij => ?_)
    · rw [getElem_cumsum_exact, zero_add, lt_exact, decide_eq_false_iff_not, not_lt]
      exact (hmono (Nat.succ_le_of_lt hij)).trans hlo
    · rw [getElem_cumsum_exact, zero_add, lt_exact, decide_eq_true_eq]
      exact hhi.trans_le (hmono (Nat.succ_le_succ hij))
  unfold itsPick
  dsimp only
  rw [hfull, hbound, if_neg hj.ne]

theorem expect_aliasDraw (hsum : 0 < ws.sum) (f : Nat → ℝ≥0∞) :
    (aliasDraw (voseTable ws) ws.length).expect f =
      ∑ i ∈ Finset.range ws.length, ENNReal.ofReal (ws.getD i 0 / ws.sum) * f i := by
  have hlen : 0 < ws.length := by
    by_contra hzero
    rw [List.eq_nil_of_length_eq_zero (by omega : ws.length = 0)] at hsum
    exact lt_irrefl 0 hsum
  have hbucket : ∀ b ∈ Finset.range ws.length,
      ∫⁻ c in Set.Ico (0 : ℝ) 1, f (aliasSample (voseTable ws) b c) =
        entryMass (fun a i => ENNReal.ofReal a * f i) (b, (voseTable ws).getD b ⟨0, 0⟩) := by
    intro b hb
    obtain ⟨hp, hp1⟩ := prob_mem_unit hw hsum.le (Finset.mem_range.mp hb)
    refine Eq.trans ?_ (lintegral_coin hp hp1 (f b) (f ((voseTable ws).getD b ⟨0, 0⟩).aliasOf))
    refine MeasureTheory.lintegral_congr fun c => ?_
    unfold aliasSample
    simp only [lt_exact, decide_eq_true_eq]
    exact apply_ite f _ _ _
  have hlaw := vose_law (g := fun a i => ENNReal.ofReal a * f i)
    (fun a b i ha hb => by rw [ENNReal.ofReal_add ha hb, add_mul]) (fun i => by simp) hw hsum
  have hn : (ws.length : ℝ≥0∞) ≠ 0 := by exact_mod_cast hlen.ne'
  show (∑ b ∈ Finset.range ws.length, ∫⁻ c in Set.Ico (0 : ℝ) 1, f (aliasSample (voseTable ws) b c)) /
    (ws.length : ℝ≥0∞) = _
  rw [Finset.sum_congr rfl hbucket, hlaw, ENNReal.div_eq_inv_mul, Finset.mul_sum]
  refine Finset.sum_congr rfl fun i _ => ?_
  have hscale : ENNReal.ofReal (ws.getD i 0 * (ws.length / ws.sum)) =
      (ws.length : ℝ≥0∞) * ENNReal.ofReal (ws.getD i 0 / ws.sum) := by
    rw [mul_div_assoc', mul_comm, mul_div_assoc, ENNReal.ofReal_mul (Nat.cast_nonneg _), ENNReal.ofReal_natCast]
  rw [hscale, ← mul_assoc, ← mul_assoc, ENNReal.inv_mul_cancel hn (ENNReal.natCast_ne_top _), one_mul]

end draws

/-! ### Groups of candidates -/

/-- Picking a group by its total and then a member by its share of the total is picking a member by its weight. -/
theorem mixture {ws : List ℝ} (hw : ∀ w ∈ ws, 0 ≤ w) (S : ℝ) (g : Nat → ℝ≥0∞) :
    ENNReal.ofReal (ws.sum / S) * ∑ l ∈ Finset.range ws.length, ENNReal.ofReal (ws.getD l 0 / ws.sum) * g l =
      ∑ l ∈ Finset.range ws.length, ENNReal.ofReal (ws.getD l 0 / S) * g l := by
  rw [Finset.mul_sum]
  refine Finset.sum_congr rfl fun l hl => ?_
  have hmem : ws.getD l 0 ∈ ws := by
    rw [List.getD_eq_getElem _ _ (Finset.mem_range.mp hl)]
    exact List.getElem_mem _
  have hle : ws.getD l 0 ≤ ws.sum := List.single_le_sum hw _ hmem
  rcases (hw _ hmem).eq_or_lt with hzero | hpos
  · rw [← hzero]
    simp
  · have hsum : ws.sum ≠ 0 := (hpos.trans_le hle).ne'
    rw [← mul_assoc, mul_comm (ENNReal.ofReal _), ← ENNReal.ofReal_mul (div_nonneg hpos.le (hpos.trans_le hle).le),
      div_mul_div_cancel₀ hsum]

/-- A scaled uniform draw that picks a group by the running sums of the totals, and a member of the group by its
share. Groups of total zero are never picked. -/
theorem lintegral_groups (groups : List (List ℝ)) (hw : ∀ ws ∈ groups, ∀ w ∈ ws, 0 ≤ w) {S : ℝ} (hS : 0 < S)
    (hsum : (groups.map List.sum).sum = S) (F : ℝ → ℝ≥0∞) (g : Nat → Nat → ℝ≥0∞)
    (h : ∀ j (hj : j < groups.length), 0 < groups[j].sum → ∀ r, ((groups.map List.sum).take j).sum ≤ r →
      r < ((groups.map List.sum).take (j + 1)).sum →
        F r = ∑ l ∈ Finset.range groups[j].length, ENNReal.ofReal (groups[j].getD l 0 / groups[j].sum) * g j l) :
    ∫⁻ u in Set.Ico (0 : ℝ) 1, F (u * S) = ∑ j ∈ Finset.range groups.length,
      ∑ l ∈ Finset.range (groups.getD j []).length, ENNReal.ofReal ((groups.getD j []).getD l 0 / S) * g j l := by
  have htotals : ∀ total ∈ groups.map List.sum, 0 ≤ total := by
    intro total htotal
    obtain ⟨ws, hws, rfl⟩ := List.mem_map.mp htotal
    exact List.sum_nonneg (hw ws hws)
  have hstep : ∀ j (hj : j < groups.length),
      ((groups.map List.sum).take (j + 1)).sum - ((groups.map List.sum).take j).sum = groups[j].sum := by
    intro j hj
    rw [sum_take_succ_sub (by simpa using hj), List.getD_eq_getElem _ _ (by simpa using hj), List.getElem_map]
  rw [lintegral_scaled_steps (sum_take_monotone htotals) hS (m := groups.length) (by simp)
    (by rw [List.take_of_length_le (by simp), hsum]) F
    fun j => ∑ l ∈ Finset.range (groups.getD j []).length,
      ENNReal.ofReal ((groups.getD j []).getD l 0 / (groups.getD j []).sum) * g j l]
  · refine Finset.sum_congr rfl fun j hj => ?_
    have hj' : j < groups.length := Finset.mem_range.mp hj
    rw [hstep j hj', List.getD_eq_getElem _ _ hj']
    exact mixture (hw _ (List.getElem_mem hj')) S (g j)
  · intro j hj r hlo hhi
    have hpos : 0 < groups[j].sum := by
      rw [← hstep j hj]
      linarith
    rw [List.getD_eq_getElem _ _ hj]
    exact h j hj hpos r hlo hhi

theorem lintegral_itsPick {ws : List ℝ} (hw : ∀ w ∈ ws, 0 ≤ w) (hsum : 0 < ws.sum) (f : Int → ℝ≥0∞) :
    ∫⁻ u in Set.Ico (0 : ℝ) 1, f (itsPick (cumsum 0 ws) ws.length (u * ws.sum)) =
      ∑ i ∈ Finset.range ws.length, ENNReal.ofReal (ws.getD i 0 / ws.sum) * f i := by
  rw [lintegral_scaled_steps (sum_take_monotone hw) hsum (m := ws.length) (by simp) (by simp)
    (fun r => f (itsPick (cumsum 0 ws) ws.length r)) fun i => f i]
  · exact Finset.sum_congr rfl fun i hi => by rw [sum_take_succ_sub (Finset.mem_range.mp hi)]
  · intro i hi r hlo hhi
    rw [itsPick_eq hw rfl hi hlo hhi]

theorem findIdx_cumsum {ws : List ℝ} (hw : ∀ w ∈ ws, 0 ≤ w) {j : Nat} (hj : j < ws.length) {r : ℝ}
    (hlo : (ws.take j).sum ≤ r) (hhi : r < (ws.take (j + 1)).sum) :
    (cumsum 0 ws).findIdx? (fun c => lt r c) = some j := by
  have hmono := sum_take_monotone hw
  refine List.findIdx?_eq_some_iff_getElem.mpr ⟨by rwa [length_cumsum], ?_, fun i hi => ?_⟩
  · rw [getElem_cumsum_exact, zero_add, lt_exact, decide_eq_true_eq]
    exact hhi
  · rw [getElem_cumsum_exact, zero_add, lt_exact, Bool.not_eq_true, decide_eq_false_iff_not, not_lt]
    exact (hmono (Nat.succ_le_of_lt hi)).trans hlo

/-! ### `sample_pat` -/

/-- The total weight of the candidates. -/
noncomputable def candidateTotal (graph : TemporalGraph) (w : List ℝ) (u : Nat) (tPrev : Int) : ℝ :=
  ∑ i ∈ Finset.range (graph.candidateSetLen u tPrev), w.getD i 0

/-- The expectation of `f` over the candidates, each with its share of the total. -/
noncomputable def candidateMean (graph : TemporalGraph) (w : List ℝ) (u : Nat) (tPrev : Int)
    (f : Option Int → ℝ≥0∞) : ℝ≥0∞ :=
  ∑ i ∈ Finset.range (graph.candidateSetLen u tPrev),
    ENNReal.ofReal (w.getD i 0 / candidateTotal graph w u tPrev) * f (some i)

theorem candidateSetLen_pos {graph : TemporalGraph} {w : List ℝ} {u : Nat} {tPrev : Int}
    (hS : candidateTotal graph w u tPrev ≠ 0) : 0 < graph.candidateSetLen u tPrev := by
  by_contra hG
  rw [candidateTotal, Nat.eq_zero_of_not_pos hG, Finset.sum_range_zero] at hS
  exact hS rfl

theorem candidateTotal_nonneg {w : List ℝ} (hw : ∀ x ∈ w, 0 ≤ x) (graph : TemporalGraph) (u : Nat) (tPrev : Int) :
    0 ≤ candidateTotal graph w u tPrev :=
  Finset.sum_nonneg fun i _ => getD_nonneg hw i

section pat

variable {P : Type} {graph : TemporalGraph} {bias : Bias ℝ P} {minTrunkSize : Int} (hg : graph.WellFormed) {u : Nat}
  (hu : u < graph.numVertices) {tPrev : Int} {w : List ℝ} (hlen : w.length = graph.degree u)
  (hrestrict : bias.RestrictsOnSlices (graph.timestampsOf u) w)

/-- The weights of the candidates, full trunk by full trunk, then edge by edge. -/
noncomputable def patGroups (graph : TemporalGraph) (minTrunkSize : Int) (w : List ℝ) (u : Nat) (tPrev : Int) :
    List (List ℝ) :=
  (List.range (fullTrunks graph minTrunkSize u tPrev)).map (Pat.trunkWeights w (Pat.vertexTrunkSize graph minTrunkSize u)) ++
    (slice w (fullSize graph minTrunkSize u tPrev)
      (graph.candidateSetLen u tPrev - fullSize graph minTrunkSize u tPrev)).map fun x => [x]

include hg hu hlen hrestrict

theorem vertexWeights_eq : vertexWeights graph bias u = w :=
  hrestrict.onPrefixes.fullWeights_eq (by rw [hlen, hg.length_timestamps u hu])

omit hlen in
theorem partialWeights_eq : partialWeights graph bias minTrunkSize u tPrev =
    slice w (fullSize graph minTrunkSize u tPrev)
      (graph.candidateSetLen u tPrev - fullSize graph minTrunkSize u tPrev) := by
  have hle := hg.candidateSetLen_le hu tPrev
  have hfit : fullSize graph minTrunkSize u tPrev ≤ graph.candidateSetLen u tPrev := fullSize_le
  refine hrestrict _ _ ?_
  rw [hg.length_timestamps u hu]
  omega

theorem sums_patGroups : (patGroups graph minTrunkSize w u tPrev).map List.sum =
    fullTotals graph bias minTrunkSize u tPrev ++ partialWeights graph bias minTrunkSize u tPrev := by
  have hn : fullTrunks graph minTrunkSize u tPrev ≤
      numTrunks (graph.degree u) (Pat.vertexTrunkSize graph minTrunkSize u) := fullTrunks_le hg hu
  rw [partialWeights_eq hg hu hrestrict, fullTotals, vertexWeights_eq hg hu hlen hrestrict, patGroups,
    Pat.trunkTotals, List.map_append, List.map_map, List.map_map, ← List.map_take, List.take_range, hlen,
    Nat.min_eq_left hn]
  have hsingle : (List.sum ∘ fun x : ℝ => [x]) = id := funext fun x => List.sum_singleton
  congr 1
  · exact List.map_congr_left fun k _ => (sum_exact _).symm
  · rw [hsingle, List.map_id]

omit hrestrict in
theorem patGroups_full {k : Nat} (hk : k < fullTrunks graph minTrunkSize u tPrev) :
    (patGroups graph minTrunkSize w u tPrev).getD k [] =
      Pat.trunkWeights w (Pat.vertexTrunkSize graph minTrunkSize u) k ∧
    (Pat.trunkWeights w (Pat.vertexTrunkSize graph minTrunkSize u) k).length = Pat.vertexTrunkSize graph minTrunkSize u ∧
    ∀ l < Pat.vertexTrunkSize graph minTrunkSize u,
      (Pat.trunkWeights w (Pat.vertexTrunkSize graph minTrunkSize u) k).getD l 0 =
        w.getD (k * Pat.vertexTrunkSize graph minTrunkSize u + l) 0 := by
  have hend : (k + 1) * Pat.vertexTrunkSize graph minTrunkSize u ≤ fullSize graph minTrunkSize u tPrev :=
    Nat.mul_le_mul_right _ hk
  have hfit : fullSize graph minTrunkSize u tPrev ≤ graph.candidateSetLen u tPrev := fullSize_le
  have hle := hg.candidateSetLen_le hu tPrev
  have hfull : trunkLength w.length (Pat.vertexTrunkSize graph minTrunkSize u) k =
      Pat.vertexTrunkSize graph minTrunkSize u := trunkLength_of_le (by omega)
  refine ⟨?_, ?_, fun l hl => ?_⟩
  · rw [patGroups, List.getD_eq_getElem?_getD, List.getElem?_append_left (by simpa using hk)]
    simp [hk]
  · rw [Pat.length_trunkWeights (by rw [Nat.succ_mul] at hend; omega), hfull]
  · rw [Pat.trunkWeights, hfull, List.getD_eq_getElem?_getD, getElem?_slice, if_pos hl, List.getD_eq_getElem?_getD]

omit hrestrict in
theorem patGroups_single {i : Nat} (hi : i < graph.candidateSetLen u tPrev - fullSize graph minTrunkSize u tPrev) :
    (patGroups graph minTrunkSize w u tPrev).getD (fullTrunks graph minTrunkSize u tPrev + i) [] =
      [w.getD (fullSize graph minTrunkSize u tPrev + i) 0] := by
  have hle := hg.candidateSetLen_le hu tPrev
  have hmem : fullSize graph minTrunkSize u tPrev + i < w.length := by omega
  rw [patGroups, List.getD_eq_getElem?_getD, List.getElem?_append_right (by simp)]
  simp [getElem?_slice, hi, List.getElem?_eq_getElem hmem]

omit hrestrict in
theorem length_patGroups : (patGroups graph minTrunkSize w u tPrev).length = fullTrunks graph minTrunkSize u tPrev +
    (graph.candidateSetLen u tPrev - fullSize graph minTrunkSize u tPrev) := by
  have hle := hg.candidateSetLen_le hu tPrev
  have hfit : fullSize graph minTrunkSize u tPrev ≤ graph.candidateSetLen u tPrev := fullSize_le
  rw [patGroups, List.length_append, List.length_map, List.length_map, List.length_range, length_slice (by omega)]

/-- The position of member `l` of group `j`. -/
def patPosition (graph : TemporalGraph) (minTrunkSize : Int) (u : Nat) (tPrev : Int) (j l : Nat) : Nat :=
  if j < fullTrunks graph minTrunkSize u tPrev then j * Pat.vertexTrunkSize graph minTrunkSize u + l
  else fullSize graph minTrunkSize u tPrev + (j - fullTrunks graph minTrunkSize u tPrev)

omit hrestrict in
theorem sum_patGroups {M : Type} [AddCommMonoid M] (h : ℝ → Nat → M) :
    ∑ j ∈ Finset.range (patGroups graph minTrunkSize w u tPrev).length,
      ∑ l ∈ Finset.range ((patGroups graph minTrunkSize w u tPrev).getD j []).length,
        h (((patGroups graph minTrunkSize w u tPrev).getD j []).getD l 0)
          (patPosition graph minTrunkSize u tPrev j l) =
      ∑ i ∈ Finset.range (graph.candidateSetLen u tPrev), h (w.getD i 0) i := by
  have hfit : fullSize graph minTrunkSize u tPrev ≤ graph.candidateSetLen u tPrev := fullSize_le
  rw [length_patGroups hg hu hlen, Finset.sum_range_add]
  conv_rhs => rw [← Nat.add_sub_cancel' hfit, Finset.sum_range_add, fullSize, sum_range_blocks]
  congr 1
  · refine Finset.sum_congr rfl fun k hk => ?_
    obtain ⟨hgroup, hsize, hget⟩ := patGroups_full hg hu hlen (Finset.mem_range.mp hk)
    rw [hgroup, hsize]
    refine Finset.sum_congr rfl fun l hl => ?_
    rw [hget l (Finset.mem_range.mp hl), patPosition, if_pos (Finset.mem_range.mp hk)]
  · refine Finset.sum_congr rfl fun i hi => ?_
    rw [patGroups_single hg hu hlen (Finset.mem_range.mp hi), List.length_singleton, Finset.sum_range_one, patPosition,
      if_neg (by omega), Nat.add_sub_cancel_left]
    rfl

theorem patTotal_exact : patTotal graph bias minTrunkSize u tPrev = candidateTotal graph w u tPrev := by
  have htotals : (patGroups graph minTrunkSize w u tPrev).map List.sum = fullTotals graph bias minTrunkSize u tPrev ++
      partialWeights graph bias minTrunkSize u tPrev := sums_patGroups hg hu hlen hrestrict
  rw [patTotal, sum_exact, sum_exact, ← List.sum_append, ← htotals, ← sum_range_getD, List.length_map]
  refine Eq.trans (Finset.sum_congr rfl fun j _ => ?_) (sum_patGroups hg hu hlen fun x _ => x)
  rw [sum_range_getD, ← List.sum_nil, List.getD_map]

/-- What the sampler does with a number below the total. -/
noncomputable def patPick (graph : TemporalGraph) (bias : Bias ℝ P) (minTrunkSize : Int) (u : Nat) (tPrev : Int) (r : ℝ) :
    Draw ℝ (Option Int) :=
  if lt r (Arith.sum (fullTotals graph bias minTrunkSize u tPrev)) then do
    let k := itsPick (cumsum 0 (fullTotals graph bias minTrunkSize u tPrev)) (fullTrunks graph minTrunkSize u tPrev) r
    let av := (Pat.tables graph bias minTrunkSize).aliasViewOfTrunk graph u k.toNat
    let pos ← aliasDraw av av.length
    return some (k * (Pat.vertexTrunkSize graph minTrunkSize u : Nat) + pos)
  else
    return some (fullSize graph minTrunkSize u tPrev + itsPick (cumsum 0 (partialWeights graph bias minTrunkSize u tPrev))
      (graph.candidateSetLen u tPrev - fullSize graph minTrunkSize u tPrev)
      (r - Arith.sum (fullTotals graph bias minTrunkSize u tPrev)))

theorem patPick_full (hw : ∀ x ∈ w, 0 ≤ x) (f : Option Int → ℝ≥0∞) {k : Nat}
    (hk : k < fullTrunks graph minTrunkSize u tPrev)
    (hsum : 0 < (Pat.trunkWeights w (Pat.vertexTrunkSize graph minTrunkSize u) k).sum) {r : ℝ}
    (hlo : ((fullTotals graph bias minTrunkSize u tPrev).take k).sum ≤ r)
    (hhi : r < ((fullTotals graph bias minTrunkSize u tPrev).take (k + 1)).sum) :
    (patPick graph bias minTrunkSize u tPrev r).expect f =
      ∑ l ∈ Finset.range (Pat.vertexTrunkSize graph minTrunkSize u),
        ENNReal.ofReal ((Pat.trunkWeights w (Pat.vertexTrunkSize graph minTrunkSize u) k).getD l 0 /
          (Pat.trunkWeights w (Pat.vertexTrunkSize graph minTrunkSize u) k).sum) *
        f (some ((k * Pat.vertexTrunkSize graph minTrunkSize u + l : Nat) : Int)) := by
  have hn : (fullTotals graph bias minTrunkSize u tPrev).length = fullTrunks graph minTrunkSize u tPrev :=
    length_fullTotals hg hu
  have htotals : ∀ total ∈ fullTotals graph bias minTrunkSize u tPrev, 0 ≤ total := by
    intro total htotal
    rw [fullTotals, vertexWeights_eq hg hu hlen hrestrict] at htotal
    obtain ⟨i, -, rfl⟩ := List.mem_map.mp (List.mem_of_mem_take htotal)
    rw [sum_exact]
    exact List.sum_nonneg fun x hx => hw x (mem_of_mem_slice hx)
  have hbelow : r < (fullTotals graph bias minTrunkSize u tPrev).sum := by
    have h := sum_take_monotone htotals (by omega : k + 1 ≤ (fullTotals graph bias minTrunkSize u tPrev).length)
    simp only [List.take_length] at h
    exact hhi.trans_le h
  obtain ⟨-, hsize, hview⟩ := fullTrunk_view bias hg hu hk
  have hmember : ∀ x ∈ Pat.trunkWeights w (Pat.vertexTrunkSize graph minTrunkSize u) k, 0 ≤ x :=
    fun x hx => hw x (mem_of_mem_slice hx)
  rw [vertexWeights_eq hg hu hlen hrestrict] at hsize hview
  rw [patPick, if_pos (by rw [sum_exact]; simpa using hbelow), itsPick_eq htotals hn hk hlo hhi]
  dsimp only
  rw [Int.toNat_natCast, hview, length_voseTable, Draw.expect_bind,
    expect_aliasDraw hmember hsum, hsize]
  refine Finset.sum_congr rfl fun l _ => ?_
  rw [Draw.expect_pure]
  push_cast
  rfl

omit hlen in
theorem patPick_single (hw : ∀ x ∈ w, 0 ≤ x) {i : Nat}
    (hi : i < graph.candidateSetLen u tPrev - fullSize graph minTrunkSize u tPrev) {r : ℝ}
    (hlo : (fullTotals graph bias minTrunkSize u tPrev).sum +
      ((partialWeights graph bias minTrunkSize u tPrev).take i).sum ≤ r)
    (hhi : r < (fullTotals graph bias minTrunkSize u tPrev).sum +
      ((partialWeights graph bias minTrunkSize u tPrev).take (i + 1)).sum) :
    patPick graph bias minTrunkSize u tPrev r = pure (some ((fullSize graph minTrunkSize u tPrev + i : Nat) : Int)) := by
  have hn : (partialWeights graph bias minTrunkSize u tPrev).length =
      graph.candidateSetLen u tPrev - fullSize graph minTrunkSize u tPrev := length_partialWeights hg hu
  have hweights : ∀ x ∈ partialWeights graph bias minTrunkSize u tPrev, 0 ≤ x := by
    rw [partialWeights_eq hg hu hrestrict]
    exact fun x hx => hw x (mem_of_mem_slice hx)
  have habove : ¬ r < (fullTotals graph bias minTrunkSize u tPrev).sum := by
    have h : 0 ≤ ((partialWeights graph bias minTrunkSize u tPrev).take i).sum :=
      List.sum_nonneg fun x hx => hweights x (List.mem_of_mem_take hx)
    linarith
  rw [patPick, if_neg (by rw [sum_exact]; simpa using habove), sum_exact,
    itsPick_eq hweights hn hi (by linarith) (by linarith)]
  push_cast
  rfl

/-- **`sample_pat` chooses a candidate with probability proportional to its weight.** -/
theorem patChoice_law (hw : ∀ x ∈ w, 0 ≤ x) (hS : candidateTotal graph w u tPrev ≠ 0) (f : Option Int → ℝ≥0∞) :
    (patChoice graph (Pat.tables graph bias minTrunkSize) bias u tPrev).expect f =
      candidateMean graph w u tPrev f := by
  have hG : 0 < graph.candidateSetLen u tPrev := candidateSetLen_pos hS
  have hpos : 0 < candidateTotal graph w u tPrev := (candidateTotal_nonneg hw graph u tPrev).lt_of_ne' hS
  have htotal : patTotal graph bias minTrunkSize u tPrev = candidateTotal graph w u tPrev :=
    patTotal_exact hg hu hlen hrestrict
  have hsums : (patGroups graph minTrunkSize w u tPrev).map List.sum = fullTotals graph bias minTrunkSize u tPrev ++
      partialWeights graph bias minTrunkSize u tPrev := sums_patGroups hg hu hlen hrestrict
  have hlength : (patGroups graph minTrunkSize w u tPrev).length = fullTrunks graph minTrunkSize u tPrev +
      (graph.candidateSetLen u tPrev - fullSize graph minTrunkSize u tPrev) := length_patGroups hg hu hlen
  have hn : (fullTotals graph bias minTrunkSize u tPrev).length = fullTrunks graph minTrunkSize u tPrev :=
    length_fullTotals hg hu
  have hnonneg : ∀ ws ∈ patGroups graph minTrunkSize w u tPrev, ∀ x ∈ ws, 0 ≤ x := by
    intro ws hws x hx
    rcases List.mem_append.mp hws with hws | hws
    · obtain ⟨k, -, rfl⟩ := List.mem_map.mp hws
      exact hw x (mem_of_mem_slice hx)
    · obtain ⟨y, hy, rfl⟩ := List.mem_map.mp hws
      rw [List.mem_singleton.mp hx]
      exact hw y (mem_of_mem_slice hy)
  rw [patChoice_tables hg hu hG, htotal, if_neg (by simpa using hpos), Draw.nextU01_bind, Draw.expect_u01]
  refine Eq.trans (lintegral_groups (patGroups graph minTrunkSize w u tPrev) hnonneg hpos ?_
    (fun r => (patPick graph bias minTrunkSize u tPrev r).expect f)
    (fun j l => f (some ((patPosition graph minTrunkSize u tPrev j l : Nat) : Int))) fun j hj hgroup r hlo hhi => ?_)
    (sum_patGroups hg hu hlen fun x i => ENNReal.ofReal (x / candidateTotal graph w u tPrev) * f (some i))
  · rw [hsums, List.sum_append, ← htotal, patTotal, sum_exact, sum_exact]
  have hget : (patGroups graph minTrunkSize w u tPrev)[j] = (patGroups graph minTrunkSize w u tPrev).getD j [] :=
    (List.getD_eq_getElem _ _ hj).symm
  rw [hsums] at hlo hhi
  rw [hget] at hgroup ⊢
  rcases Nat.lt_or_ge j (fullTrunks graph minTrunkSize u tPrev) with hfull | hpart
  · obtain ⟨heq, hsize, -⟩ := patGroups_full hg hu hlen hfull
    rw [List.take_append_of_le_length (by omega)] at hlo hhi
    rw [heq] at hgroup ⊢
    rw [patPick_full hg hu hlen hrestrict hw f hfull hgroup hlo hhi, hsize]
    simp only [patPosition, if_pos hfull]
  · obtain ⟨i, rfl⟩ := Nat.exists_eq_add_of_le hpart
    have hi : i < graph.candidateSetLen u tPrev - fullSize graph minTrunkSize u tPrev := by omega
    rw [patGroups_single hg hu hlen hi, List.sum_singleton] at hgroup
    rw [← hn, List.take_length_add_append, List.sum_append] at hlo
    rw [← hn, Nat.add_assoc, List.take_length_add_append, List.sum_append] at hhi
    rw [patGroups_single hg hu hlen hi, patPick_single hg hu hrestrict hw hi hlo hhi, Draw.expect_pure,
      List.length_singleton, List.sum_singleton, Finset.sum_range_one, List.getD_cons_zero, div_self hgroup.ne',
      ENNReal.ofReal_one, one_mul, patPosition, if_neg (by omega), Nat.add_sub_cancel_left]

end pat

/-! ### `sample_hpat` -/

section hpat

variable {P : Type} {graph : TemporalGraph} {bias : Bias ℝ P} {aux : AuxIndex} (hg : graph.WellFormed) {u : Nat}
  (hu : u < graph.numVertices) {tPrev : Int} {w : List ℝ} (hlen : w.length = graph.degree u)
  (hrestrict : bias.RestrictsOnPrefixes (graph.timestampsOf u) w)

include hg hu hrestrict

theorem candidateWeights_eq : sliceWeights graph bias u 0 (graph.candidateSetLen u tPrev) =
    slice w 0 (graph.candidateSetLen u tPrev) :=
  hrestrict _ (by rw [hg.length_timestamps u hu]; exact hg.candidateSetLen_le hu tPrev)

include hlen

theorem allWeights_eq : vertexWeights graph bias u = w :=
  hrestrict.fullWeights_eq (by rw [hlen, hg.length_timestamps u hu])

omit hrestrict in
theorem sum_candidates : (slice w 0 (graph.candidateSetLen u tPrev)).sum = candidateTotal graph w u tPrev := by
  have hle := hg.candidateSetLen_le hu tPrev
  rw [sum_slice w (by omega), candidateTotal]
  simp only [Nat.zero_add]

omit hrestrict in
theorem sum_coverGroups {M : Type} [AddCommMonoid M] (hsolo : soloOfDegree (graph.degree u) = false)
    (h : ℝ → Nat → M) :
    ((candidateCover graph u tPrev).map fun t => ∑ l ∈ Finset.range (Hpat.trunkWeights w t).length,
      h ((Hpat.trunkWeights w t).getD l 0) (t.lo + l)).sum =
      ∑ i ∈ Finset.range (graph.candidateSetLen u tPrev), h (w.getD i 0) i := by
  have hle := hg.candidateSetLen_le hu tPrev
  refine Eq.trans ?_ (sum_cover (candidateSetLen_lt_levels hg hu hsolo) fun i => h (w.getD i 0) i)
  refine congrArg List.sum (List.map_congr_left fun t ht => ?_)
  have hhi : t.hi ≤ graph.candidateSetLen u tPrev := hi_le_of_mem_cover ht
  rw [Hpat.length_trunkWeights (by omega)]
  refine Finset.sum_congr rfl fun l hl => ?_
  rw [Hpat.trunkWeights, List.getD_eq_getElem?_getD, getElem?_slice, if_pos (Finset.mem_range.mp hl),
    List.getD_eq_getElem?_getD]

theorem hpatTotal_exact : hpatTotal graph bias u tPrev = candidateTotal graph w u tPrev := by
  unfold hpatTotal
  split_ifs with hsolo
  · rw [candidateWeights_eq hg hu hrestrict, sum_exact, sum_candidates hg hu hlen]
  · rw [coverTotals, allWeights_eq hg hu hlen hrestrict, sum_exact]
    refine Eq.trans ?_ (sum_coverGroups hg hu hlen (by simpa using hsolo) fun x _ => x)
    refine congrArg List.sum (List.map_congr_left fun t _ => ?_)
    rw [sum_exact, sum_range_getD]

theorem hpatChoice_law_soloFull (hw : ∀ x ∈ w, 0 ≤ x) (hsolo : soloOfDegree (graph.degree u) = true)
    (hfull : graph.candidateSetLen u tPrev = graph.degree u) (hS : 0 < candidateTotal graph w u tPrev)
    (f : Option Int → ℝ≥0∞) :
    (hpatChoice graph (Hpat.tables graph bias aux) bias u tPrev).expect f = candidateMean graph w u tPrev f := by
  have htotal : w.sum = candidateTotal graph w u tPrev := by
    rw [candidateTotal, hfull, ← hlen, sum_range_getD]
  rw [hpatChoice_soloFull hg hu hsolo (candidateSetLen_pos hS.ne') hfull, allWeights_eq hg hu hlen hrestrict,
    Draw.expect_map, expect_aliasDraw hw (by rwa [htotal]), candidateMean, htotal, hfull, hlen]

theorem hpatChoice_law_soloPartial (hw : ∀ x ∈ w, 0 ≤ x) (hsolo : soloOfDegree (graph.degree u) = true)
    (hpart : graph.candidateSetLen u tPrev ≠ graph.degree u) (hS : 0 < candidateTotal graph w u tPrev)
    (f : Option Int → ℝ≥0∞) :
    (hpatChoice graph (Hpat.tables graph bias aux) bias u tPrev).expect f = candidateMean graph w u tPrev f := by
  have hle := hg.candidateSetLen_le hu tPrev
  have htotal : (slice w 0 (graph.candidateSetLen u tPrev)).sum = candidateTotal graph w u tPrev :=
    sum_candidates hg hu hlen
  have hsize : (slice w 0 (graph.candidateSetLen u tPrev)).length = graph.candidateSetLen u tPrev :=
    length_slice (by omega)
  have hnonneg : ∀ x ∈ slice w 0 (graph.candidateSetLen u tPrev), 0 ≤ x := fun x hx => hw x (mem_of_mem_slice hx)
  have hpick := lintegral_itsPick hnonneg (by rwa [htotal]) fun pos => f (some pos)
  rw [hsize, htotal] at hpick
  rw [hpatChoice_soloPartial hg hu hsolo (candidateSetLen_pos hS.ne') hpart, candidateWeights_eq hg hu hrestrict,
    sum_exact, htotal, if_neg (by simpa using hS), Draw.nextU01_bind, Draw.expect_u01]
  refine hpick.trans (Finset.sum_congr rfl fun i hi => ?_)
  rw [List.getD_eq_getElem?_getD, getElem?_slice, if_pos (Finset.mem_range.mp hi), Nat.zero_add,
    List.getD_eq_getElem?_getD]

theorem coverTotals_eq : coverTotals graph bias u tPrev =
    ((candidateCover graph u tPrev).map (Hpat.trunkWeights w)).map List.sum := by
  rw [coverTotals, allWeights_eq hg hu hlen hrestrict, List.map_map]
  exact List.map_congr_left fun t _ => sum_exact _

theorem coverPick_eq (hw : ∀ x ∈ w, 0 ≤ x) {j : Nat} (hj : j < (candidateCover graph u tPrev).length) {r : ℝ}
    (hlo : ((coverTotals graph bias u tPrev).take j).sum ≤ r)
    (hhi : r < ((coverTotals graph bias u tPrev).take (j + 1)).sum) :
    coverPick graph bias u tPrev r = (candidateCover graph u tPrev)[j] := by
  have hsums : ∀ total ∈ coverTotals graph bias u tPrev, 0 ≤ total := by
    intro total hmem
    rw [coverTotals_eq hg hu hlen hrestrict, List.map_map] at hmem
    obtain ⟨t, -, rfl⟩ := List.mem_map.mp hmem
    exact List.sum_nonneg fun x hx => hw x (mem_of_mem_slice hx)
  rw [coverPick, findIdx_cumsum hsums (by rwa [coverTotals, List.length_map]) hlo hhi, Option.getD_some,
    List.getD_eq_getElem _ _ hj]

theorem hpatChoice_law_hierarchical (hw : ∀ x ∈ w, 0 ≤ x) (haux : ServesCovers graph aux)
    (hsolo : soloOfDegree (graph.degree u) = false) (hS : 0 < candidateTotal graph w u tPrev)
    (f : Option Int → ℝ≥0∞) :
    (hpatChoice graph (Hpat.tables graph bias aux) bias u tPrev).expect f = candidateMean graph w u tPrev f := by
  have htotal : hpatTotal graph bias u tPrev = candidateTotal graph w u tPrev :=
    hpatTotal_exact hg hu hlen hrestrict
  have htotals : coverTotals graph bias u tPrev =
      ((candidateCover graph u tPrev).map (Hpat.trunkWeights w)).map List.sum := coverTotals_eq hg hu hlen hrestrict
  have hnonneg : ∀ ws ∈ (candidateCover graph u tPrev).map (Hpat.trunkWeights w), ∀ x ∈ ws, 0 ≤ x := by
    intro ws hws x hx
    obtain ⟨t, -, rfl⟩ := List.mem_map.mp hws
    exact hw x (mem_of_mem_slice hx)
  rw [hpatTotal, if_neg (by simp [hsolo]), sum_exact] at htotal
  rw [hpatChoice_hierarchical hg hu haux hsolo (candidateSetLen_pos hS.ne'), sum_exact, htotal,
    if_neg (by simpa using hS), Draw.nextU01_bind, Draw.expect_u01]
  refine Eq.trans (lintegral_groups ((candidateCover graph u tPrev).map (Hpat.trunkWeights w)) hnonneg hS
    (by rw [← htotals, htotal]) (fun r => (do
      let t := coverPick graph bias u tPrev r
      let ws := Hpat.trunkWeights (vertexWeights graph bias u) t
      let pos ← aliasDraw (voseTable ws) ws.length
      return some ((t.lo + pos : Nat) : Int)).expect f)
    (fun j l => f (some ((((candidateCover graph u tPrev).getD j ⟨0, 0⟩).lo + l : Nat) : Int)))
    fun j hj hgroup r hlo hhi => ?_) ?_
  · rw [List.length_map] at hj
    rw [← htotals] at hlo hhi
    rw [List.getElem_map] at hgroup ⊢
    rw [allWeights_eq hg hu hlen hrestrict, coverPick_eq hg hu hlen hrestrict hw hj hlo hhi,
      List.getD_eq_getElem _ _ hj]
    dsimp only
    have hmember : ∀ x ∈ Hpat.trunkWeights w (candidateCover graph u tPrev)[j], 0 ≤ x :=
      fun x hx => hw x (mem_of_mem_slice hx)
    rw [Draw.expect_bind, expect_aliasDraw hmember hgroup]
    rfl
  · rw [candidateMean, ← sum_coverGroups hg hu hlen hsolo fun x i =>
      ENNReal.ofReal (x / candidateTotal graph w u tPrev) * f (some i), ← sum_range_getD, List.length_map,
      List.length_map]
    refine Finset.sum_congr rfl fun j hj => ?_
    have hj := Finset.mem_range.mp hj
    simp [List.getD_eq_getElem?_getD, hj]

/-- **`sample_hpat` chooses a candidate with probability proportional to its weight**, in each of its layouts. -/
theorem hpatChoice_law (hw : ∀ x ∈ w, 0 ≤ x) (haux : ServesCovers graph aux)
    (hS : candidateTotal graph w u tPrev ≠ 0) (f : Option Int → ℝ≥0∞) :
    (hpatChoice graph (Hpat.tables graph bias aux) bias u tPrev).expect f = candidateMean graph w u tPrev f := by
  have hpos : 0 < candidateTotal graph w u tPrev := (candidateTotal_nonneg hw graph u tPrev).lt_of_ne' hS
  by_cases hsolo : soloOfDegree (graph.degree u) = true
  · by_cases hfull : graph.candidateSetLen u tPrev = graph.degree u
    · exact hpatChoice_law_soloFull hg hu hlen hrestrict hw hsolo hfull hpos f
    · exact hpatChoice_law_soloPartial hg hu hlen hrestrict hw hsolo hfull hpos f
  · exact hpatChoice_law_hierarchical hg hu hlen hrestrict hw haux (by simpa using hsolo) hpos f

end hpat

end Tea
