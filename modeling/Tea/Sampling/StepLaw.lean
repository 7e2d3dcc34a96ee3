import Tea.Sampling.Exact
import Tea.Graph.Contents
/-!
# The step law as a function of the candidates

Which step a sampler takes with which probability depends on the candidate entries in their order and on the weights at
their positions (`shareOf`). If the weight of an entry is a function of its time, the order does not matter
(`shareOf_perm`).
-/

namespace Tea

open Layout Arith
open scoped ENNReal

variable {P : Type}

/-- The stored entries before `tPrev`, in the order of the store. -/
def TemporalGraph.candidates (graph : TemporalGraph) (u : Nat) (tPrev : Int) : List Entry :=
  (graph.entriesOf u).take (graph.candidateSetLen u tPrev)

/-- The step along an entry. -/
def stepTo (e : Entry) : SampledStep := ⟨e.2, e.1⟩

theorem stepTo_injective : Function.Injective stepTo := by
  intro a b h
  have ht := congrArg SampledStep.t h
  have hv := congrArg SampledStep.v h
  exact Prod.ext ht hv

/-- The probability of the step `s` when entry `i` of `es` is taken with weight `w i`. -/
noncomputable def shareOf (es : List Entry) (w : Nat → ℝ) (s : SampledStep) : ℝ≥0∞ :=
  let total := ∑ i ∈ Finset.range es.length, w i
  if total = 0 then if SampledStep.dead = s then 1 else 0
  else ∑ i ∈ Finset.range es.length, ENNReal.ofReal (w i / total) * if stepTo (es.getD i (0, 0)) = s then 1 else 0

/-! ### The samplers -/

section samplers

variable {graph : TemporalGraph} (hg : graph.WellFormed) {u : Nat} (hu : u < graph.numVertices) (tPrev : Int)

include hg hu

theorem length_entriesOf : (graph.entriesOf u).length = graph.degree u := by
  rw [TemporalGraph.entriesOf, List.length_zip, hg.length_timestamps u hu, hg.length_targets u hu, Nat.min_self]

theorem length_candidates : (graph.candidates u tPrev).length = graph.candidateSetLen u tPrev := by
  rw [TemporalGraph.candidates, List.length_take, length_entriesOf hg hu]
  exact Nat.min_eq_left (hg.candidateSetLen_le hu tPrev)

theorem getD_candidates {i : Nat} (hi : i < graph.candidateSetLen u tPrev) :
    (graph.candidates u tPrev).getD i (0, 0) = ((graph.timestampsOf u).getD i 0, (graph.targetsOf u).getD i 0) := by
  have hdegree := hg.candidateSetLen_le hu tPrev
  have hts : i < (graph.timestampsOf u).length := by rw [hg.length_timestamps u hu]; omega
  have htg : i < (graph.targetsOf u).length := by rw [hg.length_targets u hu]; omega
  have hlen : i < (graph.candidates u tPrev).length := by rwa [length_candidates hg hu]
  rw [List.getD_eq_getElem _ _ hlen, List.getD_eq_getElem _ _ hts, List.getD_eq_getElem _ _ htg]
  simp only [TemporalGraph.candidates, TemporalGraph.entriesOf, List.getElem_take, List.getElem_zip]

theorem candidates_eq_filter : graph.candidates u tPrev = (graph.entriesOf u).filter (·.1 < tPrev) := by
  have hbefore : ∀ i (hi : i < (graph.entriesOf u).length),
      ((graph.entriesOf u)[i].1 < tPrev ↔ i < graph.candidateSetLen u tPrev) := by
    intro i hi
    rw [length_entriesOf hg hu] at hi
    have hts : i < (graph.timestampsOf u).length := by rwa [hg.length_timestamps u hu]
    rw [← hg.timestamp_lt_iff hu tPrev hi, List.getD_eq_getElem _ _ hts]
    simp only [TemporalGraph.entriesOf, List.getElem_zip]
  have htake : ((graph.entriesOf u).take (graph.candidateSetLen u tPrev)).filter (·.1 < tPrev) =
      (graph.entriesOf u).take (graph.candidateSetLen u tPrev) := by
    apply List.filter_eq_self.mpr
    intro e he
    obtain ⟨i, hi, rfl⟩ := List.mem_iff_getElem.mp he
    rw [List.length_take] at hi
    rw [List.getElem_take, decide_eq_true_eq]
    exact (hbefore i (by omega)).mpr (by omega)
  have hdrop : ((graph.entriesOf u).drop (graph.candidateSetLen u tPrev)).filter (·.1 < tPrev) = [] := by
    apply List.filter_eq_nil_iff.mpr
    intro e he
    obtain ⟨i, hi, rfl⟩ := List.mem_iff_getElem.mp he
    rw [List.length_drop] at hi
    rw [List.getElem_drop, decide_eq_true_eq, hbefore _ (by omega)]
    omega
  conv_rhs => rw [← List.take_append_drop (graph.candidateSetLen u tPrev) (graph.entriesOf u)]
  rw [List.filter_append, htake, hdrop, List.append_nil]
  rfl

theorem stepOf_candidate {i : Nat} (hi : i < graph.candidateSetLen u tPrev) :
    stepOf graph u (some i) = stepTo ((graph.candidates u tPrev).getD i (0, 0)) := by
  rw [getD_candidates hg hu tPrev hi]
  rfl

theorem prob_of_exact {w : List ℝ} {choice : Draw ℝ (Option Int)} {sample : Draw ℝ SampledStep}
    (hsample : sample = stepOf graph u <$> choice) (hdead : candidateTotal graph w u tPrev = 0 → sample = pure .dead)
    (hlaw : candidateTotal graph w u tPrev ≠ 0 → ∀ f, choice.expect f = candidateMean graph w u tPrev f)
    (s : SampledStep) : sample.prob (· = s) = shareOf (graph.candidates u tPrev) (fun i => w.getD i 0) s := by
  have htotal : ∑ i ∈ Finset.range (graph.candidates u tPrev).length, w.getD i 0 = candidateTotal graph w u tPrev := by
    rw [length_candidates hg hu]
    rfl
  rw [shareOf, htotal, length_candidates hg hu, Draw.prob_eq_expect]
  split_ifs with hS hs
  · rw [hdead hS, Draw.expect_pure, if_pos hs]
  · rw [hdead hS, Draw.expect_pure, if_neg hs]
  · rw [hsample, Draw.expect_map, hlaw hS, candidateMean]
    refine Finset.sum_congr rfl fun i hi => ?_
    rw [stepOf_candidate hg hu tPrev (Finset.mem_range.mp hi)]

variable {bias : Bias ℝ P} (hexact : bias.ExactOnSlices (graph.timestampsOf u))

include hexact

theorem prob_samplePat (pat : Pat ℝ P) (minTrunkSize : Int) (τ : ForSchedule graph.numVertices)
    (scratch : SamplerScratch ℝ) (s : SampledStep) :
    (Prod.fst <$> samplePat graph (pat.build graph bias minTrunkSize τ) bias u tPrev scratch).prob (· = s) =
      shareOf (graph.candidates u tPrev) (fun i => (bias.fullWeights (graph.timestampsOf u)).getD i 0) s := by
  obtain ⟨hw, hrestrict⟩ := hexact
  rw [Pat.build_eq hg]
  refine prob_of_exact hg hu tPrev (fst_samplePat graph _ bias u tPrev scratch) (fun hS => ?_)
    (patChoice_law hg hu (hw.length_eq_degree hg hu) hrestrict hw.nonneg) s
  exact (patChoice_exact hg hu tPrev hw hrestrict minTrunkSize scratch).dead (.inr hS)

theorem prob_sampleHpat {hpat : Hpat ℝ P} {auxBudgetBytes : Nat} (hrenews : hpat.Renews auxBudgetBytes)
    (τ τ' : ForSchedule graph.numVertices) (scratch : SamplerScratch ℝ) (s : SampledStep) :
    (Prod.fst <$> sampleHpat graph (hpat.build graph bias auxBudgetBytes τ τ') bias u tPrev scratch).prob (· = s) =
      shareOf (graph.candidates u tPrev) (fun i => (bias.fullWeights (graph.timestampsOf u)).getD i 0) s := by
  obtain ⟨hw, hrestrict⟩ := hexact
  obtain ⟨aux, haux, htables⟩ := Hpat.build_renewed hg bias hrenews τ τ'
  rw [htables]
  refine prob_of_exact hg hu tPrev (fst_sampleHpat graph _ bias u tPrev scratch) (fun hS => ?_)
    (hpatChoice_law hg hu (hw.length_eq_degree hg hu) hrestrict.onPrefixes hw.nonneg haux) s
  exact (hpatChoice_exact hg hu tPrev hw hrestrict.onPrefixes haux scratch).dead (.inr hS)

end samplers

/-! ### Weights that depend on the time only -/

theorem getD_map_timestamps {graph : TemporalGraph} (hg : graph.WellFormed) {u : Nat} (hu : u < graph.numVertices)
    (tPrev : Int) (g : Int → ℝ) {i : Nat} (hi : i < (graph.candidates u tPrev).length) :
    ((graph.timestampsOf u).map g).getD i 0 = g ((graph.candidates u tPrev).getD i (0, 0)).1 := by
  rw [length_candidates hg hu] at hi
  have hdegree := hg.candidateSetLen_le hu tPrev
  have hts : i < (graph.timestampsOf u).length := by rw [hg.length_timestamps u hu]; omega
  rw [getD_candidates hg hu tPrev hi, List.getD_eq_getElem _ _ (by rwa [List.length_map]), List.getElem_map,
    List.getD_eq_getElem _ _ hts]

theorem shareOf_congr {es : List Entry} {w w' : Nat → ℝ} (h : ∀ i < es.length, w i = w' i) (s : SampledStep) :
    shareOf es w s = shareOf es w' s := by
  have hrange : ∀ i ∈ Finset.range es.length, w i = w' i := fun i hi => h i (Finset.mem_range.mp hi)
  have htotal : ∑ i ∈ Finset.range es.length, w i = ∑ i ∈ Finset.range es.length, w' i := Finset.sum_congr rfl hrange
  unfold shareOf
  rw [htotal]
  dsimp only
  congr 1
  exact Finset.sum_congr rfl fun i hi => by rw [hrange i hi]

theorem shareOf_perm {es es' : List Entry} (hperm : es.Perm es') (g : Int → ℝ) (s : SampledStep) :
    shareOf es (fun i => g (es.getD i (0, 0)).1) s = shareOf es' (fun i => g (es'.getD i (0, 0)).1) s := by
  have htotal : ∀ xs : List Entry, ∑ i ∈ Finset.range xs.length, g (xs.getD i (0, 0)).1 =
      (xs.map fun e => g e.1).sum := fun xs => sum_range_getD_map xs (0, 0) fun e => g e.1
  have hmean : ∀ (xs : List Entry) (total : ℝ), ∑ i ∈ Finset.range xs.length,
      ENNReal.ofReal (g (xs.getD i (0, 0)).1 / total) * (if stepTo (xs.getD i (0, 0)) = s then 1 else 0) =
      (xs.map fun e => ENNReal.ofReal (g e.1 / total) * if stepTo e = s then 1 else 0).sum := fun xs total =>
    sum_range_getD_map xs (0, 0) fun e => ENNReal.ofReal (g e.1 / total) * if stepTo e = s then 1 else 0
  unfold shareOf
  rw [htotal, htotal, (hperm.map _).sum_eq]
  dsimp only
  rw [hmean, hmean, (hperm.map _).sum_eq]

/-- The weight of an entry is a function of its time. -/
def Bias.ByTime (bias : Bias ℝ P) : Prop := ∀ ts, ∃ g : Int → ℝ, bias.fullWeights ts = ts.map g

theorem byTime_ofEdgeWeight (defaultParams : P) (params : List Int → P) (g : P → Int → ℝ) :
    (Bias.ofEdgeWeight defaultParams params fun p _ t => g p t).ByTime := by
  intro ts
  refine ⟨g (params ts), ?_⟩
  apply List.ext_getElem (by rw [Bias.length_fullWeights, List.length_map])
  intro i hi _
  have hi' : i < ts.length := by rwa [Bias.length_fullWeights] at hi
  rw [← List.getD_eq_getElem _ 0 hi, Bias.getD_fullWeights_ofEdgeWeight hi', List.getElem_map,
    List.getD_eq_getElem _ _ hi']

theorem uniformBias_byTime : (uniformBias : Bias ℝ Unit).ByTime := byTime_ofEdgeWeight () (fun _ => ()) fun _ _ => 1

theorem ExponentialBias.toBias_byTime (exp : ℝ → ℝ) (self : ExponentialBias ℝ) : (self.toBias exp).ByTime :=
  byTime_ofEdgeWeight _ _ _

end Tea
