import Tea.Sampling.Exact
import Tea.Sampling.Softmax
/-!
# Exponential weights and underflow

In the default mode the weight of an edge of `u` is `exp (t - tₘₐₓ)`, with `tₘₐₓ` the newest timestamp of `u`. The
pivot belongs to the vertex, not to the candidates: after an early `t_prev` every candidate can lie so far before
`tₘₐₓ` that its weight underflows. What decides is the lag of the newest candidate (`UnderflowLaw`): the samplers are
live while its weight is positive, and dead from there on.
-/

namespace Tea

open Layout Arith

/-- What the results assume about `std::exp`. -/
structure ExpModel (exp : ℝ → ℝ) : Prop where
  nonneg : ∀ x, 0 ≤ exp x
  monotone : Monotone exp
  zero : exp 0 = 1
  pos : ∀ x, -700 ≤ x → x ≤ 0 → 0 < exp x
  underflow : ∀ x, x < -746 → exp x = 0

/-- The newest timestamp of `u`. -/
def TemporalGraph.newest (graph : TemporalGraph) (u : Nat) : Int :=
  (graph.timestampsOf u).getD (graph.degree u - 1) 0

/-- How long before the newest edge of `u` its newest candidate lies. -/
def TemporalGraph.candidateLag (graph : TemporalGraph) (u : Nat) (tPrev : Int) : Int :=
  graph.newest u - (graph.timestampsOf u).getD (graph.candidateSetLen u tPrev - 1) 0

/-- Sampling at a lag: every draw is live while the weight at that lag does not underflow, every draw is dead
otherwise. -/
structure UnderflowLaw (exp : ℝ → ℝ) (lag : Int) (sample : Draw ℝ SampledStep) : Prop where
  live : exp (-lag) ≠ 0 → sample.All UnitDraw (·.v ≠ kWalkDeadSentinel)
  dead : exp (-lag) = 0 → sample = pure .dead
  live_near : lag ≤ 700 → sample.All UnitDraw (·.v ≠ kWalkDeadSentinel)
  dead_far : 746 < lag → sample = pure .dead

/-! ### The weights in the default mode -/

theorem getD_fullWeights_default {exp : ℝ → ℝ} {bias : ExponentialBias ℝ} (hmode : bias.timescaleBound ≤ 0) {ts : List Int}
    (hsorted : ts.Pairwise (· ≤ ·)) {i : Nat} (hi : i < ts.length) :
    ((bias.toBias exp).fullWeights ts).getD i 0 = exp (ts.getD i 0 - ts.getD (ts.length - 1) 0 : Int) := by
  have hscale : softmaxScale bias.timescaleBound ts = 1 := if_neg fun h => (not_lt.mpr hmode) h.1
  rw [getD_fullWeights hsorted hi, hscale, one_mul, Int.cast_sub]

section law

variable {graph : TemporalGraph} (hg : graph.WellFormed) {u : Nat} (hu : u < graph.numVertices) {tPrev : Int}
  {exp : ℝ → ℝ} (hexp : ExpModel exp) {bias : ExponentialBias ℝ} (hmode : bias.timescaleBound ≤ 0)
  (hG : 0 < graph.candidateSetLen u tPrev)

include hg hu hexp hmode hG

/-- The candidates have weight exactly if the newest of them has. -/
theorem candidateTotal_eq_zero_iff :
    candidateTotal graph ((bias.toBias exp).fullWeights (graph.timestampsOf u)) u tPrev = 0 ↔
      exp (-(graph.candidateLag u tPrev : Int)) = 0 := by
  have hlen := hg.length_timestamps u hu
  have hle := hg.candidateSetLen_le hu tPrev
  have hsorted := hg.sorted u hu
  have hweight : ∀ i < graph.candidateSetLen u tPrev,
      ((bias.toBias exp).fullWeights (graph.timestampsOf u)).getD i 0 =
        exp ((graph.timestampsOf u).getD i 0 - graph.newest u : Int) := by
    intro i hi
    rw [getD_fullWeights_default hmode hsorted (by omega), hlen]
    rfl
  have hlag : (-(graph.candidateLag u tPrev : Int) : ℝ) =
      ((graph.timestampsOf u).getD (graph.candidateSetLen u tPrev - 1) 0 - graph.newest u : Int) := by
    unfold TemporalGraph.candidateLag
    push_cast
    ring
  have hnewest := hweight (graph.candidateSetLen u tPrev - 1) (by omega)
  rw [hlag, ← hnewest]
  unfold candidateTotal
  rw [Finset.sum_eq_zero_iff_of_nonneg fun i hi => by rw [hweight i (Finset.mem_range.mp hi)]; exact hexp.nonneg _]
  constructor
  · intro h
    exact h _ (Finset.mem_range.mpr (by omega))
  · intro h i hi
    have hi := Finset.mem_range.mp hi
    have hts := getD_le_getD hsorted (by omega : i ≤ graph.candidateSetLen u tPrev - 1) (by omega)
    have hmono : ((bias.toBias exp).fullWeights (graph.timestampsOf u)).getD i 0 ≤
        ((bias.toBias exp).fullWeights (graph.timestampsOf u)).getD (graph.candidateSetLen u tPrev - 1) 0 := by
      rw [hweight i hi, hnewest]
      refine hexp.monotone ?_
      exact_mod_cast (by omega : (graph.timestampsOf u).getD i 0 - graph.newest u ≤
        (graph.timestampsOf u).getD (graph.candidateSetLen u tPrev - 1) 0 - graph.newest u)
    exact le_antisymm (hmono.trans h.le) (by rw [hweight i hi]; exact hexp.nonneg _)

omit hexp hmode in
theorem candidateLag_nonneg : 0 ≤ graph.candidateLag u tPrev := by
  have hlen := hg.length_timestamps u hu
  have hle := hg.candidateSetLen_le hu tPrev
  have h := getD_le_getD (hg.sorted u hu)
    (by omega : graph.candidateSetLen u tPrev - 1 ≤ graph.degree u - 1) (by omega)
  unfold TemporalGraph.candidateLag TemporalGraph.newest
  omega

theorem underflowLaw_of_exact {choose : Draw ℝ (Option Int)} {sample : Draw ℝ SampledStep}
    (h : ExactStep graph ((bias.toBias exp).fullWeights (graph.timestampsOf u)) u tPrev choose sample) :
    UnderflowLaw exp (graph.candidateLag u tPrev) sample := by
  have hiff := candidateTotal_eq_zero_iff hg hu hexp hmode hG
  have hlag := candidateLag_nonneg hg hu hG
  have hlive : exp (-(graph.candidateLag u tPrev : Int)) ≠ 0 → sample.All UnitDraw (·.v ≠ kWalkDeadSentinel) :=
    fun hne => h.live hG.ne' (hiff.not.mpr hne)
  have hdead : exp (-(graph.candidateLag u tPrev : Int)) = 0 → sample = pure .dead :=
    fun hzero => h.dead (.inr (hiff.mpr hzero))
  refine ⟨hlive, hdead, fun hnear => hlive (hexp.pos _ ?_ ?_).ne', fun hfar => hdead (hexp.underflow _ ?_)⟩
  · have : (graph.candidateLag u tPrev : ℝ) ≤ 700 := by exact_mod_cast hnear
    linarith
  · have : (0 : ℝ) ≤ graph.candidateLag u tPrev := by exact_mod_cast hlag
    linarith
  · have : (746 : ℝ) < graph.candidateLag u tPrev := by exact_mod_cast hfar
    linarith

end law

/-! ### The two samplers -/

section samplers

variable {graph : TemporalGraph} (hg : graph.WellFormed) {u : Nat} (hu : u < graph.numVertices) {tPrev : Int}
  (hG : 0 < graph.candidateSetLen u tPrev) {exp : ℝ → ℝ} (hexp : ExpModel exp)

/-- The law of both samplers with tables built on `graph` for `bias`. -/
def SamplersUnderflow (exp : ℝ → ℝ) (graph : TemporalGraph) (u : Nat) (tPrev : Int) (bias : Bias ℝ (ExpParams ℝ)) :
    Prop :=
  (∀ (pat : Pat ℝ (ExpParams ℝ)) (minTrunkSize : Int) (τ : ForSchedule graph.numVertices) (scratch : SamplerScratch ℝ),
    UnderflowLaw exp (graph.candidateLag u tPrev)
      (Prod.fst <$> samplePat graph (pat.build graph bias minTrunkSize τ) bias u tPrev scratch)) ∧
  ∀ (hpat : Hpat ℝ (ExpParams ℝ)) (auxBudgetBytes : Nat) (τ τ' : ForSchedule graph.numVertices)
    (scratch : SamplerScratch ℝ), hpat.Renews auxBudgetBytes → UnderflowLaw exp (graph.candidateLag u tPrev)
      (Prod.fst <$> sampleHpat graph (hpat.build graph bias auxBudgetBytes τ τ') bias u tPrev scratch)

include hg hu hG hexp

theorem samplers_underflow {bias : ExponentialBias ℝ} (hmode : bias.timescaleBound ≤ 0) :
    SamplersUnderflow exp graph u tPrev (bias.toBias exp) := by
  obtain ⟨hw, hrestrict⟩ := bias.toBias_exact hexp.nonneg hexp.zero (graph.timestampsOf u)
  refine ⟨fun pat minTrunkSize τ scratch => ?_, fun hpat auxBudgetBytes τ τ' scratch hrenews => ?_⟩
  · rw [Pat.build_eq hg]
    exact underflowLaw_of_exact hg hu hexp hmode hG (patChoice_exact hg hu tPrev hw hrestrict minTrunkSize scratch)
  · obtain ⟨aux, haux, htables⟩ := Hpat.build_renewed hg (bias.toBias exp) hrenews τ τ'
    rw [htables]
    exact underflowLaw_of_exact hg hu hexp hmode hG (hpatChoice_exact hg hu tPrev hw hrestrict.onPrefixes haux scratch)

end samplers

/-- **Exponential walks live up to a lag.** In the default mode, where the candidate set is not empty, both samplers
are live on every draw as long as the weight at the lag of the newest candidate is positive, so up to a lag of 700, and
dead on every draw otherwise, so beyond a lag of 746. -/
theorem exponential_live_up_to_lag (S : StdSort) (self : TemporalGraph) {edges : List Edge} {numVertices : Int}
    {isDirected : Bool} (σ : Schedule edges isDirected) (hin : EndpointsIn edges (vertexCount edges numVertices))
    {u : Nat} (hu : u < vertexCount edges numVertices) (tPrev : Int) {exp : ℝ → ℝ} (hexp : ExpModel exp) :
    let graph := TemporalGraph.build S self edges numVertices isDirected σ
    0 < graph.candidateSetLen u tPrev →
      (∀ bias : ExponentialBias ℝ, bias.timescaleBound ≤ 0 → SamplersUnderflow exp graph u tPrev (bias.toBias exp)) ∧
      ∀ bias : Node2VecBias ℝ, bias.timescaleBound ≤ 0 → SamplersUnderflow exp graph u tPrev (bias.toBias exp) := by
  intro graph
  have hg : graph.WellFormed := TemporalGraph.build_wellFormed S self σ hin
  have hu' : u < graph.numVertices := by rwa [TemporalGraph.numVertices_build S self σ hin]
  clear_value graph
  intro hG
  refine ⟨fun bias hmode => samplers_underflow hg hu' hG hexp hmode, fun bias hmode => ?_⟩
  show SamplersUnderflow exp graph u tPrev (({ timescaleBound := bias.timescaleBound } : ExponentialBias ℝ).toBias exp)
  exact samplers_underflow hg hu' hG hexp hmode

/-- `exp` with results below `exp (-746)` flushed to zero. -/
noncomputable def flushedExp (x : ℝ) : ℝ := if x < -746 then 0 else Real.exp x

theorem flushedExp_model : ExpModel flushedExp where
  nonneg x := by
    unfold flushedExp
    split_ifs
    · exact le_rfl
    · exact (Real.exp_pos x).le
  monotone x y hxy := by
    unfold flushedExp
    split_ifs with hx hy hy
    · exact le_rfl
    · exact (Real.exp_pos y).le
    · linarith
    · exact Real.exp_le_exp.mpr hxy
  zero := by
    rw [flushedExp, if_neg (by norm_num), Real.exp_zero]
  pos x hlo _ := by
    rw [flushedExp, if_neg (by linarith)]
    exact Real.exp_pos x
  underflow x hx := if_pos hx

/-- Vertex 1 with one edge at time 0 and one at time `t`. -/
def twoTimes (t : Int) : TemporalGraph :=
  TemporalGraph.build StdSort.stable {} [⟨0, 1, 0⟩, ⟨0, 1, t⟩] 2 true (Schedule.serial _ _)

theorem exponential_live_up_to_lag_example :
    (Prod.fst <$> samplePat (twoTimes 500) (Pat.build {} (twoTimes 500) (({} : ExponentialBias ℝ).toBias flushedExp)
      kPatTrunkSizeMin (ForSchedule.serial _)) (({} : ExponentialBias ℝ).toBias flushedExp) (1 : Nat) 500 {}).All UnitDraw
      (·.v ≠ kWalkDeadSentinel) :=
  (((exponential_live_up_to_lag StdSort.stable {} (Schedule.serial [⟨0, 1, 0⟩, ⟨0, 1, 500⟩] true)
    (show EndpointsIn _ (vertexCount _ 2) by unfold EndpointsIn; decide) (u := 1) (by decide) 500 flushedExp_model
    (by decide)).1 {} (by show ((-1 : Int) : ℝ) ≤ 0; norm_num)).1 {} kPatTrunkSizeMin (ForSchedule.serial _) {}).live_near
    (by decide)

/-- A candidate a thousand seconds before the newest edge: the candidate set is not empty, and both samplers are dead. -/
theorem exponential_dead_at_lag_1000 :
    ExpModel flushedExp ∧ ({} : ExponentialBias ℝ).timescaleBound ≤ 0 ∧ (twoTimes 1000).candidateSetLen 1 1000 = 1 ∧
    Prod.fst <$> samplePat (twoTimes 1000) (Pat.build {} (twoTimes 1000) (({} : ExponentialBias ℝ).toBias flushedExp)
      kPatTrunkSizeMin (ForSchedule.serial _)) (({} : ExponentialBias ℝ).toBias flushedExp) (1 : Nat) 1000 {} =
      pure .dead ∧
    Prod.fst <$> sampleHpat (twoTimes 1000) (Hpat.build {} (twoTimes 1000) (({} : ExponentialBias ℝ).toBias flushedExp)
      kAuxIndexMaxBytes (ForSchedule.serial _) (ForSchedule.serial _)) (({} : ExponentialBias ℝ).toBias flushedExp)
      (1 : Nat) 1000 {} = pure .dead := by
  have hg : (twoTimes 1000).WellFormed :=
    TemporalGraph.build_wellFormed StdSort.stable {} (Schedule.serial _ _) (by unfold EndpointsIn; decide)
  have hmode : ({} : ExponentialBias ℝ).timescaleBound ≤ 0 := by
    show ((-1 : Int) : ℝ) ≤ 0
    norm_num
  have hlen : (twoTimes 1000).candidateSetLen 1 1000 = 1 := by decide
  have hG : 0 < (twoTimes 1000).candidateSetLen 1 1000 := by omega
  have hlag : 746 < (twoTimes 1000).candidateLag 1 1000 := by decide
  obtain ⟨hpat, hhpat⟩ := samplers_underflow hg (by decide) hG flushedExp_model hmode
  exact ⟨flushedExp_model, hmode, hlen, (hpat _ _ _ _).dead_far hlag, (hhpat {} _ _ _ _ (Hpat.renews_fresh _)).dead_far hlag⟩

end Tea
