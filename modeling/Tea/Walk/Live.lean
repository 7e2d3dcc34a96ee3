import Tea.Walk.Valid
/-!
# Walks end only where nothing is left

With positive weights a walk that stops before its last slot stops at a slot from which no stored edge leads further
back in time, and it never goes on from such a slot (`LiveWalks`). A dead step could come from an empty candidate set, a
total weight that is not positive, or the rejection loop; positivity rules out the second, and the loop returns a proposal
whatever its coins say.
-/

namespace Tea

open Arith

variable {R P ρ : Type}

structure LiveWalks (graph : TemporalGraph) (job : WalkJob) (run : WalkRun) : Prop where
  inGraph : ∀ i < job.numWalks, ∀ k < run.len i, InGraph graph (run.slot job i k)
  early : ∀ i < job.numWalks, run.len i < job.maxWalkLen → NoCandidate graph (run.slot job i (run.len i - 1))
  early_entries : ∀ i < job.numWalks, run.len i < job.maxWalkLen →
    ∀ e ∈ graph.entriesOf (run.slot job i (run.len i - 1)).v.toNat, ¬ e.1 < (run.slot job i (run.len i - 1)).t
  onward : ∀ i < job.numWalks, ∀ k, k + 1 < run.len i → ¬ NoCandidate graph (run.slot job i k)

/-- A sampler never answers a candidate set that is not empty with a dead step. -/
def NeverDiesEarly (graph : TemporalGraph) (U : R → Prop) (sample : Sampler R) : Prop :=
  ∀ (a : NodeStep) (prevU : Int) (scratch : SamplerScratch R), InGraph graph a → ¬ NoCandidate graph a →
    (sample a.v a.t prevU scratch).All U fun x => x.1.v ≠ kWalkDeadSentinel

theorem neverDiesEarly_of_live {graph : TemporalGraph} {U : R → Prop} {sample : Sampler R} {step : StepFn R}
    (h : sample.Returns step)
    (hlive : ∀ a prevU, InGraph graph a → (step a.v a.t prevU).All U (LiveStep graph a)) :
    NeverDiesEarly graph U sample := by
  intro a prevU scratch ha hsome
  have hstep := hlive a prevU ha
  rw [← h a.v a.t prevU scratch, Draw.all_map] at hstep
  exact hstep.mono fun x hx hdead => hsome (hx.mp hdead)

theorem runWalksImpl_live {graph : TemporalGraph} (hg : graph.WellFormed) {U : R → Prop} {gen : SeededGenerator R ρ}
    (hgen : gen.toGenerator.Admissible U) {sample : Sampler R} {step : StepFn R} (h : sample.Returns step)
    (hvalid : ∀ a prevU, InGraph graph a → (step a.v a.t prevU).All U (ValidStep graph a))
    (hlive : ∀ a prevU, InGraph graph a → (step a.v a.t prevU).All U (LiveStep graph a)) (job : WalkJob)
    (hstarts : job.StartsIn graph.numVertices) (ex : Execution R job.numWalks) :
    LiveWalks graph job (runWalksImpl gen sample job ex) := by
  have hstep : ∀ a prevU, InGraph graph a → (step a.v a.t prevU).All U fun s =>
      if s.v = kWalkDeadSentinel then NoCandidate graph a
      else (¬ NoCandidate graph a ∧ InGraph graph ⟨s.v, s.t⟩) ∧ InGraph graph ⟨s.v, s.t⟩ := by
    intro a prevU ha
    refine ((hvalid a prevU ha).and (hlive a prevU ha)).mono fun s hs => ?_
    split_ifs with hdead
    · exact hs.2.mp hdead
    · have hin := (hs.1 hdead).2
      exact ⟨⟨fun hnone => hdead (hs.2.mpr hnone), hin⟩, hin⟩
  have hwalk : ∀ i < job.numWalks, ∃ rest, walkAt gen job step i = ⟨job.start i, kSentinelStartTimestamp⟩ :: rest ∧
      Hops (fun a b => ¬ NoCandidate graph a ∧ InGraph graph b) (NoCandidate graph) (job.maxWalkLen - 1)
        ⟨job.start i, kSentinelStartTimestamp⟩ rest :=
    fun i hi => walkAt_hops hstep gen hgen job i (hstarts.start hi)
  have hpos := job.maxWalkLen_pos
  have hlens := fun i (hi : i < job.numWalks) => len_runWalksImpl gen h job ex hi
  have hin : ∀ i < job.numWalks, ∀ k < (runWalksImpl gen sample job ex).len i,
      InGraph graph ((runWalksImpl gen sample job ex).slot job i k) := by
    intro i hi k hk
    rw [hlens i hi] at hk
    rw [slot_live gen h job ex hi hk]
    obtain ⟨rest, hrest, hhops⟩ := hwalk i hi
    rw [hrest] at hk ⊢
    cases k with
    | zero => exact hstarts.start hi
    | succ k => exact (hhops.rel (Nat.lt_of_succ_lt_succ hk)).2
  have hearly : ∀ i < job.numWalks, (runWalksImpl gen sample job ex).len i < job.maxWalkLen →
      0 < (runWalksImpl gen sample job ex).len i ∧ NoCandidate graph
        ((runWalksImpl gen sample job ex).slot job i ((runWalksImpl gen sample job ex).len i - 1)) := by
    intro i hi hlen
    obtain ⟨rest, hrest, hhops⟩ := hwalk i hi
    have hrestlen : (walkAt gen job step i).length = rest.length + 1 := by rw [hrest, List.length_cons]
    rw [hlens i hi, hrestlen] at hlen ⊢
    rw [slot_live gen h job ex hi (by omega), hrest]
    exact ⟨Nat.succ_pos _, hhops.ends (by omega)⟩
  refine ⟨hin, fun i hi hlen => (hearly i hi hlen).2, fun i hi hlen => ?_, fun i hi k hk => ?_⟩
  · obtain ⟨hlenpos, hnone⟩ := hearly i hi hlen
    have hlast := hin i hi _ (Nat.sub_lt hlenpos Nat.one_pos)
    exact (hg.candidateSetLen_eq_zero_iff hlast.toNat_lt _).mp hnone
  · rw [hlens i hi] at hk
    rw [slot_live gen h job ex hi (by omega)]
    obtain ⟨rest, hrest, hhops⟩ := hwalk i hi
    rw [hrest] at hk ⊢
    exact (hhops.rel (Nat.lt_of_succ_lt_succ hk)).1

/-! ### The samplers of the four runners -/

/-- The sampler's steps are valid, and dead exactly without candidates. -/
structure LiveSampler (graph : TemporalGraph) (U : R → Prop) (sample : Sampler R) (step : StepFn R) : Prop where
  returns : sample.Returns step
  valid : ∀ a prevU, InGraph graph a → (step a.v a.t prevU).All U (ValidStep graph a)
  live : ∀ a prevU, InGraph graph a → (step a.v a.t prevU).All U (LiveStep graph a)

theorem LiveSampler.walks {graph : TemporalGraph} {U : R → Prop} {sample : Sampler R} {step : StepFn R}
    (hs : LiveSampler graph U sample step) (hg : graph.WellFormed) {gen : SeededGenerator R ρ}
    (hgen : gen.toGenerator.Admissible U) (job : WalkJob) (hstarts : job.StartsIn graph.numVertices)
    (ex : Execution R job.numWalks) : LiveWalks graph job (runWalksImpl gen sample job ex) :=
  runWalksImpl_live hg hgen hs.returns hs.valid hs.live job hstarts ex

section samplers

variable [Arith R] [PosArith R] {graph : TemporalGraph} (hg : graph.WellFormed) {U : R → Prop} (hU : NonnegDraws U)

include hg hU

theorem patSampler_live {bias : Bias R P} (hpos : ∀ u < graph.numVertices, PositiveAt graph bias u) (pat : Pat R P)
    (minTrunkSize : Int) (τ : ForSchedule graph.numVertices) :
    ∃ step, LiveSampler graph U (patSampler graph (pat.build graph bias minTrunkSize τ) bias) step := by
  rw [Pat.build_eq hg]
  exact ⟨_, patSampler_returns graph _ bias, fun a prevU ha => patStep_valid hg ha hU bias minTrunkSize prevU,
    fun a prevU ha => patStep_live hg ha (hpos _ ha.toNat_lt) hU minTrunkSize prevU⟩

omit hU in
theorem hpatSampler_live {bias : Bias R P} (hpos : ∀ u < graph.numVertices, PositiveAt graph bias u)
    {hpat : Hpat R P} {auxBudgetBytes : Nat} (hrenews : hpat.Renews auxBudgetBytes)
    (τ τ' : ForSchedule graph.numVertices) :
    ∃ step, LiveSampler graph U (hpatSampler graph (hpat.build graph bias auxBudgetBytes τ τ') bias) step := by
  obtain ⟨aux, haux, htables⟩ := Hpat.build_renewed hg bias hrenews τ τ'
  rw [htables]
  exact ⟨_, hpatSampler_returns graph _ bias, fun a prevU ha => hpatStep_valid hg ha haux bias prevU,
    fun a prevU ha => hpatStep_live hg ha (hpos _ ha.toNat_lt) haux prevU⟩

/-- Whatever the acceptance ratios and coins are, the loop returns one of its proposals. -/
theorem patNode2vecSampler_live {exp : R → R} {bias : Node2VecBias R}
    (hpos : ∀ u < graph.numVertices, PositiveAt graph (bias.toBias exp) u) (neighbors : NeighborSets)
    (pat : Pat R (ExpParams R)) (minTrunkSize : Int) (τ : ForSchedule graph.numVertices) :
    ∃ step, LiveSampler graph U
      (patNode2vecSampler exp graph (pat.build graph (bias.toBias exp) minTrunkSize τ) bias neighbors) step := by
  rw [Pat.build_eq hg]
  exact ⟨_, patNode2vecSampler_returns exp graph bias neighbors _,
    fun a prevU ha => node2vecStep_all (patStep_valid hg ha hU _ minTrunkSize prevU) bias neighbors,
    fun a prevU ha => node2vecStep_all (patStep_live hg ha (hpos _ ha.toNat_lt) hU minTrunkSize prevU) bias neighbors⟩

omit hU in
theorem hpatNode2vecSampler_live {exp : R → R} {bias : Node2VecBias R}
    (hpos : ∀ u < graph.numVertices, PositiveAt graph (bias.toBias exp) u) (neighbors : NeighborSets)
    {hpat : Hpat R (ExpParams R)} {auxBudgetBytes : Nat} (hrenews : hpat.Renews auxBudgetBytes)
    (τ τ' : ForSchedule graph.numVertices) :
    ∃ step, LiveSampler graph U
      (hpatNode2vecSampler exp graph (hpat.build graph (bias.toBias exp) auxBudgetBytes τ τ') bias neighbors)
      step := by
  obtain ⟨aux, haux, htables⟩ := Hpat.build_renewed hg (bias.toBias exp) hrenews τ τ'
  rw [htables]
  exact ⟨_, hpatNode2vecSampler_returns exp graph bias neighbors _,
    fun a prevU ha => node2vecStep_all (hpatStep_valid hg ha haux _ prevU) bias neighbors,
    fun a prevU ha => node2vecStep_all (hpatStep_live hg ha (hpos _ ha.toNat_lt) haux prevU) bias neighbors⟩

end samplers

/-- **No early death under positive weights**, for each of the four runners. The node2vec runners need positive static
weights only: whatever the acceptance ratios and coins are, the loop returns one of its proposals. -/
theorem walks_live [Arith R] [PosArith R] (S : StdSort) (self : TemporalGraph) {edges : List Edge} {numVertices : Int}
    {isDirected : Bool} (σ : Schedule edges isDirected) (hin : EndpointsIn edges (vertexCount edges numVertices))
    {U : R → Prop} (hU : NonnegDraws U) (gen : SeededGenerator R ρ) (hgen : gen.toGenerator.Admissible U) (job : WalkJob)
    (hstarts : job.StartsIn (vertexCount edges numVertices)) (ex : Execution R job.numWalks) :
    let graph := TemporalGraph.build S self edges numVertices isDirected σ
    (∀ bias : Bias R P, (∀ u < graph.numVertices, PositiveAt graph bias u) →
      (∀ (pat : Pat R P) (minTrunkSize : Int) (τ : ForSchedule graph.numVertices),
        LiveWalks graph job (runWalksPat gen graph (pat.build graph bias minTrunkSize τ) bias job ex)) ∧
      (∀ (hpat : Hpat R P) (auxBudgetBytes : Nat) (τ τ' : ForSchedule graph.numVertices), hpat.Renews auxBudgetBytes →
        LiveWalks graph job (runWalksHpat gen graph (hpat.build graph bias auxBudgetBytes τ τ') bias job ex))) ∧
    (∀ (exp : R → R) (bias : Node2VecBias R) (neighbors : NeighborSets),
      (∀ u < graph.numVertices, PositiveAt graph (bias.toBias exp) u) →
      (∀ (pat : Pat R (ExpParams R)) (minTrunkSize : Int) (τ : ForSchedule graph.numVertices),
        LiveWalks graph job (runWalksPatNode2vec gen exp graph (pat.build graph (bias.toBias exp) minTrunkSize τ) bias
          neighbors job ex) ∧
        NeverDiesEarly graph U (patNode2vecSampler exp graph (pat.build graph (bias.toBias exp) minTrunkSize τ) bias
          neighbors)) ∧
      (∀ (hpat : Hpat R (ExpParams R)) (auxBudgetBytes : Nat) (τ τ' : ForSchedule graph.numVertices),
        hpat.Renews auxBudgetBytes →
        LiveWalks graph job (runWalksHpatNode2vec gen exp graph
          (hpat.build graph (bias.toBias exp) auxBudgetBytes τ τ') bias neighbors job ex) ∧
        NeverDiesEarly graph U (hpatNode2vecSampler exp graph
          (hpat.build graph (bias.toBias exp) auxBudgetBytes τ τ') bias neighbors))) ∧
    (∀ u, PositiveAt graph (uniformBias : Bias R Unit) u) ∧ (∀ u, PositiveAt graph (linearBias : Bias R Unit) u) ∧
    (∀ exp : R → R, (∀ x, lt 0 (exp x) = true) →
      (∀ (bias : ExponentialBias R) (u : Nat), PositiveAt graph (bias.toBias exp) u) ∧
      (∀ (bias : Node2VecBias R) (u : Nat), PositiveAt graph (bias.toBias exp) u)) := by
  intro graph
  have hg : graph.WellFormed := TemporalGraph.build_wellFormed S self σ hin
  have hstarts' : job.StartsIn graph.numVertices := by
    rw [TemporalGraph.numVertices_build S self σ hin]
    exact hstarts
  clear_value graph
  refine ⟨fun bias hpos => ⟨fun pat minTrunkSize τ => ?_, fun hpat auxBudgetBytes τ τ' hrenews => ?_⟩,
    fun exp bias neighbors hpos => ⟨fun pat minTrunkSize τ => ?_, fun hpat auxBudgetBytes τ τ' hrenews => ?_⟩,
    uniformBias_positive.positiveAt graph, linearBias_positive.positiveAt graph,
    fun exp hexp => ⟨fun bias => (bias.toBias_positive hexp).positiveAt graph,
      fun bias => (ExponentialBias.toBias_positive hexp _).positiveAt graph⟩⟩
  · obtain ⟨step, hs⟩ := patSampler_live hg hU hpos pat minTrunkSize τ
    exact hs.walks hg hgen job hstarts' ex
  · obtain ⟨step, hs⟩ := hpatSampler_live hg hpos hrenews τ τ'
    exact hs.walks hg hgen job hstarts' ex
  · obtain ⟨step, hs⟩ := patNode2vecSampler_live hg hU hpos neighbors pat minTrunkSize τ
    exact ⟨hs.walks hg hgen job hstarts' ex, neverDiesEarly_of_live hs.returns hs.live⟩
  · obtain ⟨step, hs⟩ := hpatNode2vecSampler_live hg hpos neighbors hrenews τ τ'
    exact ⟨hs.walks hg hgen job hstarts' ex, neverDiesEarly_of_live hs.returns hs.live⟩

/-- Walks from every vertex of a graph with a hierarchical one. -/
theorem walks_live_example :
    let job := WalkJob.ofStarts [1, 0, 2] 4 7 (by decide)
    kHpatDegreeThreshold < hub.degree 1 ∧ LiveWalks hub job (runWalksHpat (Pcg64.generator ℚ) hub
      (Hpat.build {} hub linearBias kAuxIndexMaxBytes (ForSchedule.serial _) (ForSchedule.serial _)) linearBias job
      (Execution.serial ℚ 3)) :=
  ⟨degree_hub.2.1 ▸ by decide, ((walks_live StdSort.stable {} (Schedule.serial hubEdges true) endpointsIn_hubEdges
    (nonnegDraws_unit ℚ) (Pcg64.generator ℚ) Pcg64.admissible (WalkJob.ofStarts [1, 0, 2] 4 7 (by decide))
    (by unfold WalkJob.StartsIn; decide) (Execution.serial ℚ 3)).1 linearBias
    (fun u _ => linearBias_positive.positiveAt _ u)).2 {} kAuxIndexMaxBytes (ForSchedule.serial _) (ForSchedule.serial _)
    (Hpat.renews_fresh _)⟩

end Tea
