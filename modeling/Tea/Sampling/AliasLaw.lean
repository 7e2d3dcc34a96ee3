import Tea.Sampling.Law
/-!
# The law of an alias table

What `buildAliasInto` promises in exact arithmetic. The pairing loop halts within one iteration per slot. The call
writes each slot once, with a probability and an alias that is a slot (`voseWrites` lists the writes). A draw from the
table returns index `i` with probability `wᵢ / W`, and an index of weight zero is not returned by any bucket and coin:
in `vose_law` no entry can put mass on it. Slots and aliases are natural numbers; all are below `n`.
-/

namespace Tea

open Layout Arith AliasBuildScratch
open scoped ENNReal

/-- The scratch the pairing loop starts with. -/
noncomputable def pairingStart (weights : List ℝ) (scratch : AliasBuildScratch ℝ) : AliasBuildScratch ℝ :=
  (List.range weights.length).foldl (scaleSlot weights (ofInt weights.length / Arith.sum weights))
    { unders := [], overs := [], scaled := resize weights.length 0 scratch.scaled }

variable {ws : List ℝ}

/-- The pairing loop halts within `n` iterations: more of them change nothing, and its condition is false. -/
theorem pairSlots_pairingStart (out : List (AliasEntry ℝ)) (scratch : AliasBuildScratch ℝ) (fuel : Nat)
    (hfuel : ws.length ≤ fuel) :
    pairSlots fuel out (pairingStart ws scratch) = pairSlots ws.length out (pairingStart ws scratch) ∧
      (pairSlots fuel out (pairingStart ws scratch)).2.pair = none := by
  have hstart : pairingStart ws scratch = scaledScratch ws (ofInt ws.length / Arith.sum ws) :=
    foldl_scaleSlot ws _ _ (length_resize _ _ _)
  have hsize : ((pairingStart ws scratch).unders ++ (pairingStart ws scratch).overs).length = ws.length := by
    rw [hstart]
    simpa using (scaledScratch_perm ws (ofInt ws.length / Arith.sum ws)).length_eq
  refine ⟨?_, (pairSlots_halts out _ fuel (by omega)).1⟩
  induction fuel, hfuel using Nat.le_induction with
  | base => rfl
  | succ fuel hle ih => rw [(pairSlots_halts out _ fuel (by omega)).2, ih]

theorem voseWrites_prob (hw : ∀ w ∈ ws, 0 ≤ w) :
    ∀ w ∈ voseWrites ws, 0 ≤ w.2.prob ∧ w.2.prob ≤ 1 := by
  intro w hmem
  obtain ⟨b, hb, rfl⟩ := List.mem_map.mp ((voseWrites_perm ws).mem_iff.mp hmem)
  exact prob_mem_unit hw (List.sum_nonneg hw) (List.mem_range.mp hb)

theorem aliasSample_ne_of_weight_zero (hw : ∀ w ∈ ws, 0 ≤ w) (hsum : 0 < ws.sum) {i b : Nat}
    (hzero : ws.getD i 0 = 0) (hb : b < ws.length) {c : ℝ} (hc : 0 ≤ c) (hc1 : c < 1) :
    aliasSample (voseTable ws) b c ≠ i := by
  set mass : ℝ → Nat → ℝ := fun a j => if j = i then a else 0
  have hlaw := vose_law (g := mass) (fun a a' j _ _ => by by_cases h : j = i <;> simp [mass, h])
    (fun j => by simp [mass]) hw hsum
  have hnone : ∑ j ∈ Finset.range ws.length, mass (ws.getD j 0 * (ws.length / ws.sum)) j = 0 := by
    refine Finset.sum_eq_zero fun j _ => ?_
    by_cases h : j = i
    · subst h
      simp only [mass, if_pos, hzero, zero_mul]
    · exact if_neg h
  have hmass : ∀ a j, 0 ≤ a → 0 ≤ mass a j := by
    intro a j ha
    show 0 ≤ if j = i then a else 0
    split_ifs
    · exact ha
    · exact le_rfl
  rw [hnone] at hlaw
  have hentry : ∀ b' ∈ Finset.range ws.length,
      0 ≤ entryMass mass (b', (voseTable ws).getD b' ⟨0, 0⟩) := by
    intro b' hb'
    obtain ⟨hp, hp1⟩ := prob_mem_unit hw hsum.le (Finset.mem_range.mp hb')
    exact add_nonneg (hmass _ _ hp) (hmass _ _ (by linarith))
  obtain ⟨hp, hp1⟩ := prob_mem_unit hw hsum.le hb
  have hb0 := (Finset.sum_eq_zero_iff_of_nonneg hentry).mp hlaw b (Finset.mem_range.mpr hb)
  obtain ⟨hown, halias⟩ := (add_eq_zero_iff_of_nonneg (hmass _ b hp) (hmass _ _ (by linarith))).mp hb0
  unfold aliasSample
  simp only [lt_exact, decide_eq_true_eq]
  split_ifs with hcoin
  · -- the bucket itself: a coin below `prob` says that `prob` is positive
    rintro rfl
    simp only [mass, if_pos] at hown
    linarith
  · intro h
    simp only [mass, h, if_pos] at halias
    linarith

theorem voseTable_of_zero (hzero : ∀ w ∈ ws, w = 0) {b : Nat} (hb : b < ws.length) :
    (voseTable ws).getD b ⟨0, 0⟩ = ⟨b, 1⟩ := by
  have hsum : Arith.sum ws = 0 := by
    rw [sum_exact]
    exact List.sum_eq_zero hzero
  have hwrites : voseWrites ws = (List.range ws.length).map fun i => (i, ⟨i, 1⟩) :=
    if_pos (by rw [hsum, le_exact, decide_eq_true_eq])
  have hmem := mem_voseWrites (R := ℝ) hb
  rw [hwrites] at hmem
  obtain ⟨i, -, hi⟩ := List.mem_map.mp hmem
  obtain ⟨rfl, hentry⟩ := Prod.mk.inj hi
  exact hentry.symm

theorem expect_aliasDraw_of_zero (hzero : ∀ w ∈ ws, w = 0) (f : Nat → ℝ≥0∞) :
    (aliasDraw (voseTable ws) ws.length).expect f = ∑ i ∈ Finset.range ws.length, 1 / ws.length * f i := by
  rw [← Finset.mul_sum, one_div, ← ENNReal.div_eq_inv_mul]
  show (∑ b ∈ Finset.range ws.length, ∫⁻ c in Set.Ico (0 : ℝ) 1, f (aliasSample (voseTable ws) b c)) /
    (ws.length : ℝ≥0∞) = _
  congr 1
  refine Finset.sum_congr rfl fun b hb => ?_
  have hown : ∀ c ∈ Set.Ico (0 : ℝ) 1, f (aliasSample (voseTable ws) b c) = f b := by
    intro c hc
    unfold aliasSample
    simp only [voseTable_of_zero hzero (Finset.mem_range.mp hb), lt_exact, decide_eq_true_eq, if_pos hc.2]
  rw [MeasureTheory.setLIntegral_congr_fun measurableSet_Ico hown, MeasureTheory.setLIntegral_const, Real.volume_Ico,
    sub_zero, ENNReal.ofReal_one, mul_one]

theorem prob_eq_of_expect {d : Draw ℝ Nat} {n : Nat} {p : Nat → ℝ≥0∞}
    (h : ∀ f, d.expect f = ∑ j ∈ Finset.range n, p j * f j) {i : Nat} (hi : i < n) :
    d.prob (fun j => j = i) = p i := by
  rw [Draw.prob, h, Finset.sum_eq_single i (fun j _ hj => by rw [if_neg hj, mul_zero])
    (fun hnot => absurd (Finset.mem_range.mpr hi) hnot), if_pos rfl, mul_one]

/-- **Vose construction is exact.** -/
theorem buildAliasInto_exact (ws : List ℝ) (hw : ∀ w ∈ ws, 0 ≤ w)
    (out : List (AliasEntry ℝ)) (hout : out.length = ws.length) (scratch : AliasBuildScratch ℝ) :
    let table := (buildAliasInto out ws scratch).1
    -- the pairing loop terminates
    (∀ fuel, ws.length ≤ fuel →
      pairSlots fuel out (pairingStart ws scratch) = pairSlots ws.length out (pairingStart ws scratch) ∧
        (pairSlots fuel out (pairingStart ws scratch)).2.pair = none) ∧
    -- every slot is written once, with a probability and an alias in range
    (table = writeAll out (voseWrites ws) ∧ ((voseWrites ws).map Prod.fst).Perm (List.range ws.length) ∧
      ∀ w ∈ voseWrites ws, (0 ≤ w.2.prob ∧ w.2.prob ≤ 1) ∧ w.2.aliasOf < ws.length) ∧
    -- the law of a draw
    (0 < ws.sum → ∀ i < ws.length,
      (aliasDraw table ws.length).prob (fun j => j = i) = ENNReal.ofReal (ws.getD i 0 / ws.sum)) ∧
    (0 < ws.sum → ∀ i, ws.getD i 0 = 0 → ∀ b < ws.length, ∀ c, 0 ≤ c → c < 1 → aliasSample table b c ≠ i) ∧
    ((∀ w ∈ ws, w = 0) → ∀ i < ws.length, (aliasDraw table ws.length).prob (fun j => j = i) = 1 / ws.length) := by
  intro table
  have htable : table = voseTable ws := buildAliasInto_eq hout scratch
  refine ⟨fun fuel hfuel => pairSlots_pairingStart out scratch fuel hfuel,
    ⟨buildAliasInto_fst out ws scratch, voseWrites_addresses ws, fun w hmem =>
      ⟨voseWrites_prob hw w hmem, voseWrites_aliasOf_lt ws w hmem⟩⟩, fun hsum i hi => ?_, ?_, fun hzero i hi => ?_⟩
  · rw [htable]
    exact prob_eq_of_expect (expect_aliasDraw hw hsum) hi
  · rw [htable]
    intro hsum i hzero b hb c hc hc1
    exact aliasSample_ne_of_weight_zero hw hsum hzero hb hc hc1
  · rw [htable]
    exact prob_eq_of_expect (p := fun _ => 1 / ws.length) (expect_aliasDraw_of_zero hzero) hi

/-- Two weights, one of them zero. -/
theorem buildAliasInto_exact_two :
    (aliasDraw (buildAliasInto [⟨7, 0⟩, ⟨7, 0⟩] [0, 3] { unders := [5] }).1 2).prob (fun j => j = 1) =
      ENNReal.ofReal (3 / 3) := by
  have h := buildAliasInto_exact [0, 3] (by simp) [⟨7, 0⟩, ⟨7, 0⟩] rfl { unders := [5] }
  simpa using h.2.2.1 (by norm_num) 1 (by norm_num)

end Tea
