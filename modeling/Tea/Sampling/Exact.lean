import Tea.Sampling.Law
/-!
# The step distribution

`ExactStep` is what a sampler is for: at `u` after `t_prev` it dies exactly if the candidates have no weight, and
otherwise it takes candidate `i` with probability `wᵢ / S`. `samplePat_exact` and `sampleHpat_exact` say so for both
samplers, on built graphs and tables, in exact arithmetic with uniform draws and from every scratch. The weights `w` may
be zero except on the newest edge (`StepWeights`).
-/

namespace Tea

open Layout Arith
open scoped ENNReal

variable {P : Type}

/-- Weights of edges at the times `ts`: none is negative and the newest edge has a positive one. -/
structure StepWeights (ts : List Int) (w : List ℝ) : Prop where
  length_eq : w.length = ts.length
  nonneg : ∀ x ∈ w, 0 ≤ x
  newest : ts ≠ [] → 0 < w.getD (ts.length - 1) 0

/-- The draws are in the unit interval. -/
def UnitDraw (x : ℝ) : Prop := 0 ≤ x ∧ x < 1

/-- Sampling at `u` after `tPrev` follows the weights `w`. `choose` returns a position, `sample` the step there. -/
structure ExactStep (graph : TemporalGraph) (w : List ℝ) (u : Nat) (tPrev : Int) (choose : Draw ℝ (Option Int))
    (sample : Draw ℝ SampledStep) : Prop where
  sample_eq : sample = stepOf graph u <$> choose
  dead : graph.candidateSetLen u tPrev = 0 ∨ candidateTotal graph w u tPrev = 0 → sample = pure .dead
  live : graph.candidateSetLen u tPrev ≠ 0 → candidateTotal graph w u tPrev ≠ 0 →
    sample.All UnitDraw (·.v ≠ kWalkDeadSentinel)
  prob_eq : candidateTotal graph w u tPrev ≠ 0 → ∀ pos : Int, choose.prob (· = some pos) =
    if 0 ≤ pos ∧ pos < graph.candidateSetLen u tPrev then
      ENNReal.ofReal (w.getD pos.toNat 0 / candidateTotal graph w u tPrev)
    else 0

/-! ### From the law of a choice to the step -/

theorem candidateMean_single (graph : TemporalGraph) (w : List ℝ) (u : Nat) (tPrev pos : Int)
    [∀ choice : Option Int, Decidable (choice = some pos)] :
    candidateMean graph w u tPrev (fun choice => if choice = some pos then 1 else 0) =
      if 0 ≤ pos ∧ pos < graph.candidateSetLen u tPrev then
        ENNReal.ofReal (w.getD pos.toNat 0 / candidateTotal graph w u tPrev)
      else 0 := by
  unfold candidateMean
  by_cases hpos : 0 ≤ pos ∧ pos < graph.candidateSetLen u tPrev
  · obtain ⟨i, rfl⟩ := Int.eq_ofNat_of_zero_le hpos.1
    rw [if_pos hpos, Finset.sum_eq_single i]
    · dsimp only
      rw [if_pos rfl, mul_one, Int.toNat_natCast]
    · intro j _ hj
      dsimp only
      rw [if_neg (by simpa using hj), mul_zero]
    · intro hi
      exact absurd (Finset.mem_range.mpr (by exact_mod_cast hpos.2)) hi
  · rw [if_neg hpos]
    refine Finset.sum_eq_zero fun i hi => ?_
    dsimp only
    rw [if_neg (fun h => hpos ?_), mul_zero]
    obtain rfl : (i : Int) = pos := Option.some.inj h
    exact ⟨by positivity, by exact_mod_cast Finset.mem_range.mp hi⟩

theorem exactStep_of_choice {graph : TemporalGraph} (hg : graph.WellFormed) {u : Nat} (hu : u < graph.numVertices)
    {tPrev : Int} {w : List ℝ} {choose choice : Draw ℝ (Option Int)} {sample : Draw ℝ SampledStep}
    (hchoose : choose = choice) (hsample : sample = stepOf graph u <$> choice)
    (hdead : graph.candidateSetLen u tPrev = 0 ∨ candidateTotal graph w u tPrev = 0 → choice = pure none)
    (hlive : candidateTotal graph w u tPrev ≠ 0 → choice.All UnitDraw (· ≠ none))
    (hcandidate : choice.All UnitDraw (IsCandidate graph u tPrev))
    (hlaw : candidateTotal graph w u tPrev ≠ 0 → ∀ f, choice.expect f = candidateMean graph w u tPrev f) :
    ExactStep graph w u tPrev choose sample where
  sample_eq := by rw [hsample, hchoose]
  dead h := by
    rw [hsample, hdead h]
    rfl
  live _ hS := by
    rw [hsample, Draw.all_map]
    refine ((hlive hS).and hcandidate).mono fun pos hpos => ?_
    obtain ⟨pos, rfl⟩ := Option.ne_none_iff_exists'.mp hpos.1
    obtain ⟨hnonneg, hlt⟩ := hpos.2 pos rfl
    have hle := hg.candidateSetLen_le hu tPrev
    have htarget := (hg.target_getD_mem hu (i := pos.toNat) (by omega)).1
    show (graph.targetsOf u).getD pos.toNat 0 ≠ -1
    omega
  prob_eq hS pos := by
    rw [hchoose, Draw.prob, hlaw hS]
    convert candidateMean_single graph w u tPrev pos

/-! ### The two samplers -/

section samplers

variable {graph : TemporalGraph} (hg : graph.WellFormed) {u : Nat} (hu : u < graph.numVertices) (tPrev : Int)
  {bias : Bias ℝ P} {w : List ℝ} (hw : StepWeights (graph.timestampsOf u) w)

include hg hu hw

theorem StepWeights.length_eq_degree : w.length = graph.degree u :=
  hw.length_eq.trans (hg.length_timestamps u hu)

theorem StepWeights.total_pos (hG : 0 < graph.candidateSetLen u tPrev)
    (hfull : graph.candidateSetLen u tPrev = graph.degree u) : 0 < candidateTotal graph w u tPrev := by
  have hlen : (graph.timestampsOf u).length = graph.degree u := hg.length_timestamps u hu
  have hne : graph.timestampsOf u ≠ [] := List.length_pos_iff.mp (by omega)
  refine Finset.sum_pos' (fun i _ => getD_nonneg hw.nonneg i) ⟨graph.degree u - 1, ?_, ?_⟩
  · exact Finset.mem_range.mpr (by omega)
  · rw [← hlen]
    exact hw.newest hne

theorem patChoice_exact (hrestrict : bias.RestrictsOnSlices (graph.timestampsOf u) w) (minTrunkSize : Int)
    (scratch : SamplerScratch ℝ) : ExactStep graph w u tPrev
      (Prod.fst <$> choosePat graph (Pat.tables graph bias minTrunkSize) bias u tPrev scratch)
      (Prod.fst <$> samplePat graph (Pat.tables graph bias minTrunkSize) bias u tPrev scratch) := by
  have hlen := hw.length_eq_degree hg hu
  have htotal : patTotal graph bias minTrunkSize u tPrev = candidateTotal graph w u tPrev :=
    patTotal_exact hg hu hlen hrestrict
  refine exactStep_of_choice hg hu (fst_choosePat graph _ bias u tPrev scratch)
    (fst_samplePat graph _ bias u tPrev scratch) (fun hdead => ?_) (fun hS => ?_)
    (patChoice_candidate hg hu (nonnegDraws_unit ℝ)) (patChoice_law hg hu hlen hrestrict hw.nonneg)
  · rcases Nat.eq_zero_or_pos (graph.candidateSetLen u tPrev) with hG | hG
    · exact patChoice_empty _ hG
    · have hS : candidateTotal graph w u tPrev = 0 := hdead.resolve_left hG.ne'
      exact patChoice_dead hg hu hG (by rw [htotal, hS]; simp)
  · have hpos := (candidateTotal_nonneg hw.nonneg graph u tPrev).lt_of_ne' hS
    exact patChoice_live hg hu UnitDraw (candidateSetLen_pos hS) (by rw [htotal]; simpa using hpos)

theorem hpatChoice_exact (hrestrict : bias.RestrictsOnPrefixes (graph.timestampsOf u) w) {aux : AuxIndex}
    (haux : ServesCovers graph aux) (scratch : SamplerScratch ℝ) : ExactStep graph w u tPrev
      (Prod.fst <$> chooseHpat graph (Hpat.tables graph bias aux) bias u tPrev scratch)
      (Prod.fst <$> sampleHpat graph (Hpat.tables graph bias aux) bias u tPrev scratch) := by
  have hlen := hw.length_eq_degree hg hu
  have htotal : hpatTotal graph bias u tPrev = candidateTotal graph w u tPrev :=
    hpatTotal_exact hg hu hlen hrestrict
  refine exactStep_of_choice hg hu (fst_chooseHpat graph _ bias u tPrev scratch)
    (fst_sampleHpat graph _ bias u tPrev scratch) (fun hdead => ?_) (fun hS => ?_)
    (hpatChoice_candidate hg hu haux UnitDraw) (hpatChoice_law hg hu hlen hrestrict hw.nonneg haux)
  · rcases Nat.eq_zero_or_pos (graph.candidateSetLen u tPrev) with hG | hG
    · exact hpatChoice_empty _ hG
    · have hS : candidateTotal graph w u tPrev = 0 := hdead.resolve_left hG.ne'
      refine hpatChoice_dead hg hu haux hG (fun _ hfull => ?_) (by rw [htotal, hS]; simp)
      exact (hw.total_pos hg hu tPrev hG hfull).ne' hS
  · have hpos := (candidateTotal_nonneg hw.nonneg graph u tPrev).lt_of_ne' hS
    exact hpatChoice_live hg hu haux UnitDraw (candidateSetLen_pos hS) (by rw [htotal]; simpa using hpos)

theorem samplers_expect_eq (hrestrict : bias.RestrictsOnSlices (graph.timestampsOf u) w) (minTrunkSize : Int)
    {aux : AuxIndex} (haux : ServesCovers graph aux) (scratch scratch' : SamplerScratch ℝ) (f : SampledStep → ℝ≥0∞) :
    (Prod.fst <$> sampleHpat graph (Hpat.tables graph bias aux) bias u tPrev scratch).expect f =
      (Prod.fst <$> samplePat graph (Pat.tables graph bias minTrunkSize) bias u tPrev scratch').expect f := by
  have hlen := hw.length_eq_degree hg hu
  have hpat := patChoice_exact hg hu tPrev hw hrestrict minTrunkSize scratch'
  have hhpat := hpatChoice_exact hg hu tPrev hw hrestrict.onPrefixes haux scratch
  by_cases hS : candidateTotal graph w u tPrev = 0
  · rw [hpat.dead (.inr hS), hhpat.dead (.inr hS)]
  · rw [fst_samplePat, fst_sampleHpat, Int.toNat_natCast, Draw.expect_map, Draw.expect_map,
      patChoice_law hg hu hlen hrestrict hw.nonneg hS, hpatChoice_law hg hu hlen hrestrict.onPrefixes hw.nonneg haux hS]

end samplers

/-! ### The biases of the code -/

/-- The bias computes its weights slice by slice, and they can be followed. -/
def Bias.ExactOnSlices (bias : Bias ℝ P) (ts : List Int) : Prop :=
  StepWeights ts (bias.fullWeights ts) ∧ bias.RestrictsOnSlices ts (bias.fullWeights ts)

theorem stepWeights_of_positive {bias : Bias ℝ P} (hpos : bias.Positive) (ts : List Int) :
    StepWeights ts (bias.fullWeights ts) := by
  have hlt : ∀ x ∈ bias.fullWeights ts, 0 < x := fun x hx => by simpa using hpos _ _ _ x hx
  refine ⟨bias.length_fullWeights ts, fun x hx => (hlt x hx).le, fun hne => ?_⟩
  have hlen : ts.length - 1 < (bias.fullWeights ts).length := by
    rw [bias.length_fullWeights]
    exact Nat.sub_one_lt (List.length_pos_iff.mpr hne).ne'
  rw [List.getD_eq_getElem _ _ hlen]
  exact hlt _ (List.getElem_mem hlen)

theorem uniformBias_exact (ts : List Int) : (uniformBias : Bias ℝ Unit).ExactOnSlices ts :=
  ⟨stepWeights_of_positive uniformBias_positive ts, uniformBias_restricts ts⟩

theorem linearBias_exact (ts : List Int) : (linearBias : Bias ℝ Unit).ExactOnSlices ts :=
  ⟨stepWeights_of_positive linearBias_positive ts, linearBias_restricts ts⟩

/-- The newest edge is the pivot, whose weight is `exp 0`; the others may underflow. -/
theorem ExponentialBias.toBias_exact {exp : ℝ → ℝ} (hnonneg : ∀ x, 0 ≤ exp x) (hzero : exp 0 = 1)
    (self : ExponentialBias ℝ) (ts : List Int) : (self.toBias exp).ExactOnSlices ts := by
  refine ⟨⟨Bias.length_fullWeights _ _, fun x hx => ?_, fun hne => ?_⟩, self.toBias_restricts exp ts⟩
  · rw [Bias.fullWeights, toBias, Bias.weights_ofEdgeWeight] at hx
    obtain ⟨i, -, rfl⟩ := List.mem_map.mp hx
    exact hnonneg _
  · have hpivot : (self.computePerVertexParams ts).tPivot = ofInt (ts.getD (ts.length - 1) 0) := by
      unfold computePerVertexParams
      rw [if_neg (by simpa using hne)]
      dsimp only
      split_ifs <;> rfl
    have hlast : ts.length - 1 < ts.length := Nat.sub_one_lt (List.length_pos_iff.mpr hne).ne'
    rw [toBias, Bias.getD_fullWeights_ofEdgeWeight hlast, hpivot, sub_self, zero_mul, hzero]
    exact one_pos

/-! ### Built graphs and tables -/

/-- **PAT samples the exact step distribution**: at every vertex of a built graph, after every time and for every
trunk size, with weights that the bias computes slice by slice. The biases of the code are such. -/
theorem samplePat_exact (S : StdSort) (self : TemporalGraph) {edges : List Edge} {numVertices : Int} {isDirected : Bool}
    (σ : Schedule edges isDirected) (hin : EndpointsIn edges (vertexCount edges numVertices)) {u : Nat}
    (hu : u < vertexCount edges numVertices) (tPrev : Int) :
    let graph := TemporalGraph.build S self edges numVertices isDirected σ
    let ts := graph.timestampsOf u
    (∀ (P : Type) (bias : Bias ℝ P) (w : List ℝ), StepWeights ts w → bias.RestrictsOnSlices ts w →
      ∀ (pat : Pat ℝ P) (minTrunkSize : Int) (τ : ForSchedule graph.numVertices) (scratch : SamplerScratch ℝ),
        ExactStep graph w u tPrev
          (Prod.fst <$> choosePat graph (pat.build graph bias minTrunkSize τ) bias u tPrev scratch)
          (Prod.fst <$> samplePat graph (pat.build graph bias minTrunkSize τ) bias u tPrev scratch)) ∧
    (uniformBias : Bias ℝ Unit).ExactOnSlices ts ∧ (linearBias : Bias ℝ Unit).ExactOnSlices ts ∧
    ∀ exp : ℝ → ℝ, (∀ x, 0 ≤ exp x) → exp 0 = 1 → ∀ bias : ExponentialBias ℝ, (bias.toBias exp).ExactOnSlices ts := by
  intro graph ts
  have hg : graph.WellFormed := TemporalGraph.build_wellFormed S self σ hin
  have hu' : u < graph.numVertices := by rwa [TemporalGraph.numVertices_build S self σ hin]
  clear_value graph
  refine ⟨fun P bias w hw hrestrict pat minTrunkSize τ scratch => ?_, uniformBias_exact ts, linearBias_exact ts,
    fun exp hnonneg hzero bias => bias.toBias_exact hnonneg hzero ts⟩
  rw [Pat.build_eq hg]
  exact patChoice_exact hg hu' tPrev hw hrestrict minTrunkSize scratch

/-- Ninety-five candidates: nine full trunks of ten edges and half of the last one. -/
theorem samplePat_exact_example :
    let pat := Pat.build {} hub linearBias kPatTrunkSizeMin (ForSchedule.serial _)
    hub.degree 1 = 100 ∧ hub.candidateSetLen 1 95 = 95 ∧
    ExactStep hub (linearBias.fullWeights (hub.timestampsOf 1)) 1 95
      (Prod.fst <$> choosePat hub pat linearBias 1 95 {}) (Prod.fst <$> samplePat hub pat linearBias (1 : Nat) 95 {}) :=
  ⟨degree_hub.2.1, candidateSetLen_hub,
    (samplePat_exact StdSort.stable {} (Schedule.serial hubEdges true) endpointsIn_hubEdges (u := 1) (by decide) 95).1 Unit
      linearBias _ (linearBias_exact _).1 (linearBias_exact _).2 {} kPatTrunkSizeMin (ForSchedule.serial _) {}⟩

/-- **HPAT samples the exact step distribution** in all its layouts, with the auxiliary index active or not, and so
has the step law of PAT. -/
theorem sampleHpat_exact (S : StdSort) (self : TemporalGraph) {edges : List Edge} {numVertices : Int} {isDirected : Bool}
    (σ : Schedule edges isDirected) (hin : EndpointsIn edges (vertexCount edges numVertices)) {u : Nat}
    (hu : u < vertexCount edges numVertices) (tPrev : Int) (bias : Bias ℝ P) (w : List ℝ) (self' : Hpat ℝ P)
    {auxBudgetBytes : Nat} (hrenews : self'.Renews auxBudgetBytes) :
    let graph := TemporalGraph.build S self edges numVertices isDirected σ
    let ts := graph.timestampsOf u
    StepWeights ts w → ∀ (τ τ' : ForSchedule graph.numVertices) (scratch : SamplerScratch ℝ),
      let hpat := self'.build graph bias auxBudgetBytes τ τ'
      (bias.RestrictsOnPrefixes ts w → ExactStep graph w u tPrev
        (Prod.fst <$> chooseHpat graph hpat bias u tPrev scratch)
        (Prod.fst <$> sampleHpat graph hpat bias u tPrev scratch)) ∧
      (bias.RestrictsOnSlices ts w → ∀ (pat : Pat ℝ P) (minTrunkSize : Int) (τ'' : ForSchedule graph.numVertices)
        (scratch' : SamplerScratch ℝ) (f : SampledStep → ℝ≥0∞),
        (Prod.fst <$> sampleHpat graph hpat bias u tPrev scratch).expect f =
          (Prod.fst <$> samplePat graph (pat.build graph bias minTrunkSize τ'') bias u tPrev scratch').expect f) := by
  intro graph ts hw τ τ' scratch hpat
  have hg : graph.WellFormed := TemporalGraph.build_wellFormed S self σ hin
  have hu' : u < graph.numVertices := by rwa [TemporalGraph.numVertices_build S self σ hin]
  clear_value graph
  obtain ⟨aux, haux, htables⟩ := Hpat.build_renewed hg bias hrenews τ τ'
  have hhpat : hpat = Hpat.tables graph bias aux := htables
  clear_value hpat
  subst hhpat
  refine ⟨fun hrestrict => hpatChoice_exact hg hu' tPrev hw hrestrict haux scratch,
    fun hrestrict pat minTrunkSize τ'' scratch' f => ?_⟩
  rw [Pat.build_eq hg]
  exact samplers_expect_eq hg hu' tPrev hw hrestrict minTrunkSize haux scratch scratch' f

/-- Ninety-five candidates at a hierarchical vertex: a cover of six trunks. -/
theorem sampleHpat_exact_example :
    let hpat := Hpat.build {} hub linearBias kAuxIndexMaxBytes (ForSchedule.serial _) (ForSchedule.serial _)
    kHpatDegreeThreshold < hub.degree 1 ∧ (candidateCover hub 1 95).length = 6 ∧
    ExactStep hub (linearBias.fullWeights (hub.timestampsOf 1)) 1 95
      (Prod.fst <$> chooseHpat hub hpat linearBias 1 95 {})
      (Prod.fst <$> sampleHpat hub hpat linearBias (1 : Nat) 95 {}) := by
  have hcover : (candidateCover hub 1 95).length = 6 := by
    rw [candidateCover, candidateSetLen_hub, degree_hub.2.1]
    decide
  exact ⟨degree_hub.2.1 ▸ by decide, hcover,
    (sampleHpat_exact StdSort.stable {} (Schedule.serial hubEdges true) endpointsIn_hubEdges (u := 1) (by decide) 95
      linearBias _ {} (Hpat.renews_fresh kAuxIndexMaxBytes) (linearBias_exact _).1 (ForSchedule.serial _)
      (ForSchedule.serial _) {}).1 (linearBias_exact _).2.onPrefixes⟩

end Tea
