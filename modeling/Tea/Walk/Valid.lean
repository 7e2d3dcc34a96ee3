import Tea.Graph.WellFormed
import Tea.Walk.Steps
import Mathlib.Algebra.Order.Ring.Rat
import Mathlib.Algebra.Field.Rat
/-!
# Walk validity

The walks of a run, read off its output buffers (`ValidWalks`): every walk starts in its start vertex, every hop
follows a stored edge of the vertex before it and goes strictly back in time, the slots behind a walk are dead, and
the statistics count the walks. No law of arithmetic enters: `NonnegDraws` says that a draw times a total is not
negative, and the generator keeps its indices below their bounds.

`runWalksImpl_valid` is the result for any sampler whose steps are valid; the four runners instantiate it.
-/

namespace Tea

open Layout Arith

variable {R P ρ : Type}

/-- Slot `k` of walk `i`. -/
def WalkRun.slot (run : WalkRun) (job : WalkJob) (i k : Nat) : NodeStep :=
  run.walksOut.getD (i * job.maxWalkLen + k) ⟨0, 0⟩

/-- The length of walk `i`. -/
def WalkRun.len (run : WalkRun) (i : Nat) : Nat := run.walkLensOut.getD i 0

structure ValidWalks (graph : TemporalGraph) (job : WalkJob) (run : WalkRun) : Prop where
  walksOut_length : run.walksOut.length = job.numWalks * job.maxWalkLen
  walkLensOut_length : run.walkLensOut.length = job.numWalks
  start : ∀ i < job.numWalks, run.slot job i 0 = ⟨job.start i, kSentinelStartTimestamp⟩
  len_mem : ∀ i < job.numWalks, 1 ≤ run.len i ∧ run.len i ≤ job.maxWalkLen
  hop : ∀ i < job.numWalks, ∀ k, 1 ≤ k → k < run.len i → Hop graph (run.slot job i (k - 1)) (run.slot job i k)
  dead : ∀ i < job.numWalks, ∀ k, run.len i ≤ k → k < job.maxWalkLen → run.slot job i k = ⟨kWalkDeadSentinel, 0⟩
  numWalks : run.stats.numWalks = job.numWalks
  totalSteps : run.stats.totalSteps = ((List.range job.numWalks).map run.len).sum
  deadAtStart : run.stats.deadAtStart = (List.range job.numWalks).countP fun i => run.len i = 1

/-! ### Reading a run -/

section read

variable (gen : SeededGenerator R ρ) {sample : Sampler R} {step : StepFn R} (h : sample.Returns step) (job : WalkJob)
  (ex : Execution R job.numWalks) {i : Nat} (hi : i < job.numWalks)

include h hi

theorem len_runWalksImpl : (runWalksImpl gen sample job ex).len i = (walkAt gen job step i).length := by
  rw [runWalksImpl_eq gen h, WalkRun.len]
  simp [List.getD_eq_getElem?_getD, hi]

theorem slot_runWalksImpl {k : Nat} (hk : k < job.maxWalkLen) : (runWalksImpl gen sample job ex).slot job i k =
    (paddedSlots job.maxWalkLen (walkAt gen job step i)).getD k ⟨0, 0⟩ := by
  have hlen : i < (allSlots gen job step).length := by simpa [allSlots] using hi
  have hblock : (allSlots gen job step)[i] = paddedSlots job.maxWalkLen (walkAt gen job step i) := by
    simp [allSlots]
  have hpadded := length_paddedSlots (walkAt_length_le gen job step i)
  have hget := getElem?_flatten (allSlots gen job step) i k hlen (by rw [hblock, hpadded]; exact hk)
  rw [start_allSlots gen job step hi.le] at hget
  rw [runWalksImpl_eq gen h, WalkRun.slot, List.getD_eq_getElem?_getD, hget, List.getD_eq_getElem _ _ (by omega)]
  simp only [hblock, Option.getD_some]

theorem slot_live {k : Nat} (hk : k < (walkAt gen job step i).length) :
    (runWalksImpl gen sample job ex).slot job i k = (walkAt gen job step i).getD k ⟨0, 0⟩ := by
  have hle := walkAt_length_le gen job step i
  rw [slot_runWalksImpl gen h job ex hi (hk.trans_le hle), paddedSlots, List.getD_eq_getElem?_getD,
    List.getElem?_append_left hk, List.getD_eq_getElem?_getD]

theorem slot_dead {k : Nat} (hk : (walkAt gen job step i).length ≤ k) (hlt : k < job.maxWalkLen) :
    (runWalksImpl gen sample job ex).slot job i k = ⟨kWalkDeadSentinel, 0⟩ := by
  rw [slot_runWalksImpl gen h job ex hi hlt, paddedSlots, List.getD_eq_getElem?_getD, List.getElem?_append_right hk,
    List.getElem?_replicate, if_pos (by omega), Option.getD_some]

end read

theorem walkAt_hops {U : R → Prop} {Rel : NodeStep → NodeStep → Prop} {Ends Dom : NodeStep → Prop} {step : StepFn R}
    (hstep : ∀ a prevU, Dom a → (step a.v a.t prevU).All U fun s =>
      if s.v = kWalkDeadSentinel then Ends a else Rel a ⟨s.v, s.t⟩ ∧ Dom ⟨s.v, s.t⟩)
    (gen : SeededGenerator R ρ) (hgen : gen.toGenerator.Admissible U) (job : WalkJob) (i : Nat)
    (hstart : Dom ⟨job.start i, kSentinelStartTimestamp⟩) :
    ∃ rest, walkAt gen job step i = ⟨job.start i, kSentinelStartTimestamp⟩ :: rest ∧
      Hops Rel Ends (job.maxWalkLen - 1) ⟨job.start i, kSentinelStartTimestamp⟩ rest :=
  ⟨_, rfl, (hopsOf_hops hstep (job.maxWalkLen - 1) ⟨job.start i, kSentinelStartTimestamp⟩ (-1) hstart).run hgen
    (gen.seedWith job.globalSeed i)⟩

/-- Every start vertex is a vertex of the graph. -/
def WalkJob.StartsIn (job : WalkJob) (n : Nat) : Prop := ∀ u ∈ job.startVertices, 0 ≤ u ∧ u < n

theorem WalkJob.StartsIn.start {job : WalkJob} {n : Nat} (h : job.StartsIn n) {i : Nat} (hi : i < job.numWalks) :
    0 ≤ job.start i ∧ job.start i < n := by
  have hlen : i < job.startVertices.length := by rwa [job.starts_length]
  rw [WalkJob.start, List.getD_eq_getElem _ _ hlen]
  exact h _ (List.getElem_mem hlen)

theorem runWalksImpl_valid {graph : TemporalGraph} {U : R → Prop} {gen : SeededGenerator R ρ}
    (hgen : gen.toGenerator.Admissible U) {sample : Sampler R} {step : StepFn R} (h : sample.Returns step)
    (hvalid : ∀ a prevU, InGraph graph a → (step a.v a.t prevU).All U (ValidStep graph a)) (job : WalkJob)
    (hstarts : job.StartsIn graph.numVertices) (ex : Execution R job.numWalks) :
    ValidWalks graph job (runWalksImpl gen sample job ex) := by
  have hstep : ∀ a prevU, InGraph graph a → (step a.v a.t prevU).All U fun s =>
      if s.v = kWalkDeadSentinel then True else Hop graph a ⟨s.v, s.t⟩ ∧ InGraph graph ⟨s.v, s.t⟩ := by
    intro a prevU ha
    refine (hvalid a prevU ha).mono fun s hs => ?_
    split_ifs with hdead
    exact hs hdead
  have hwalk := fun i (hi : i < job.numWalks) => walkAt_hops hstep gen hgen job i (hstarts.start hi)
  have hpos := job.maxWalkLen_pos
  have hlens := fun i (hi : i < job.numWalks) => len_runWalksImpl gen h job ex hi
  refine ⟨?_, ?_, fun i hi => ?_, fun i hi => ?_, fun i hi k hk hlen => ?_, fun i hi k hlen hk => ?_, ?_, ?_, ?_⟩
  · have hlen : (allSlots gen job step).length = job.numWalks := by simp [allSlots]
    rw [runWalksImpl_eq gen h, ← start_length, hlen, start_allSlots gen job step le_rfl]
  · rw [runWalksImpl_eq gen h]
    simp
  · obtain ⟨rest, hrest, -⟩ := hwalk i hi
    rw [slot_live gen h job ex hi (by rw [hrest]; exact Nat.succ_pos _), hrest]
    rfl
  · obtain ⟨rest, hrest, -⟩ := hwalk i hi
    rw [hlens i hi]
    exact ⟨by rw [hrest]; exact Nat.succ_pos _, walkAt_length_le gen job step i⟩
  · rw [hlens i hi] at hlen
    rw [slot_live gen h job ex hi (by omega), slot_live gen h job ex hi hlen]
    obtain ⟨rest, hrest, hhops⟩ := hwalk i hi
    obtain ⟨k, rfl⟩ := Nat.exists_eq_add_of_le' hk
    rw [hrest] at hlen ⊢
    exact hhops.rel (Nat.lt_of_succ_lt_succ hlen)
  · rw [hlens i hi] at hlen
    exact slot_dead gen h job ex hi hlen hk
  · rw [runWalksImpl_eq gen h]
  · rw [List.map_congr_left fun i hi => hlens i (List.mem_range.mp hi), runWalksImpl_eq gen h]
  · rw [List.countP_congr fun i hi => by rw [hlens i (List.mem_range.mp hi)], runWalksImpl_eq gen h]
    refine List.countP_congr fun i hi => ?_
    obtain ⟨rest, hrest, -⟩ := hwalk i (List.mem_range.mp hi)
    rw [hrest]
    simp

/-! ### The four runners -/

/-- **Walk validity.** On a built graph, with tables built on it, each runner produces valid walks: for every bias,
every execution and every generator that keeps its indices below their bounds, however the arithmetic rounds. -/
theorem walks_valid [Arith R] (S : StdSort) (self : TemporalGraph) {edges : List Edge} {numVertices : Int}
    {isDirected : Bool} (σ : Schedule edges isDirected) (hin : EndpointsIn edges (vertexCount edges numVertices))
    {U : R → Prop} (hU : NonnegDraws U) (gen : SeededGenerator R ρ) (hgen : gen.toGenerator.Admissible U) (job : WalkJob)
    (hstarts : job.StartsIn (vertexCount edges numVertices)) (ex : Execution R job.numWalks) :
    let graph := TemporalGraph.build S self edges numVertices isDirected σ
    (∀ (bias : Bias R P) (pat : Pat R P) (minTrunkSize : Int) (τ : ForSchedule graph.numVertices),
      ValidWalks graph job (runWalksPat gen graph (pat.build graph bias minTrunkSize τ) bias job ex)) ∧
    (∀ (bias : Bias R P) (hpat : Hpat R P) (auxBudgetBytes : Nat) (τ τ' : ForSchedule graph.numVertices),
      hpat.Renews auxBudgetBytes →
        ValidWalks graph job (runWalksHpat gen graph (hpat.build graph bias auxBudgetBytes τ τ') bias job ex)) ∧
    (∀ (exp : R → R) (bias : Node2VecBias R) (neighbors : NeighborSets) (pat : Pat R (ExpParams R)) (minTrunkSize : Int)
      (τ : ForSchedule graph.numVertices), ValidWalks graph job (runWalksPatNode2vec gen exp graph
        (pat.build graph (bias.toBias exp) minTrunkSize τ) bias neighbors job ex)) ∧
    (∀ (exp : R → R) (bias : Node2VecBias R) (neighbors : NeighborSets) (hpat : Hpat R (ExpParams R))
      (auxBudgetBytes : Nat) (τ τ' : ForSchedule graph.numVertices), hpat.Renews auxBudgetBytes →
        ValidWalks graph job (runWalksHpatNode2vec gen exp graph
          (hpat.build graph (bias.toBias exp) auxBudgetBytes τ τ') bias neighbors job ex)) := by
  intro graph
  have hg : graph.WellFormed := TemporalGraph.build_wellFormed S self σ hin
  have hstarts' : job.StartsIn graph.numVertices := by
    rw [TemporalGraph.numVertices_build S self σ hin]
    exact hstarts
  clear_value graph
  refine ⟨fun bias pat minTrunkSize τ => ?_, fun bias hpat auxBudgetBytes τ τ' hrenews => ?_,
    fun exp bias neighbors pat minTrunkSize τ => ?_, fun exp bias neighbors hpat auxBudgetBytes τ τ' hrenews => ?_⟩
  · rw [Pat.build_eq hg]
    exact runWalksImpl_valid hgen (patSampler_returns graph _ bias)
      (fun a prevU ha => patStep_valid hg ha hU bias minTrunkSize prevU) job hstarts' ex
  · obtain ⟨aux, haux, htables⟩ := Hpat.build_renewed hg bias hrenews τ τ'
    rw [htables]
    exact runWalksImpl_valid hgen (hpatSampler_returns graph _ bias)
      (fun a prevU ha => hpatStep_valid hg ha haux bias prevU) job hstarts' ex
  · rw [Pat.build_eq hg]
    exact runWalksImpl_valid hgen (patNode2vecSampler_returns exp graph bias neighbors _)
      (fun a prevU ha => node2vecStep_all (patStep_valid hg ha hU (bias.toBias exp) minTrunkSize prevU) bias neighbors)
      job hstarts' ex
  · obtain ⟨aux, haux, htables⟩ := Hpat.build_renewed hg (bias.toBias exp) hrenews τ τ'
    rw [htables]
    exact runWalksImpl_valid hgen (hpatNode2vecSampler_returns exp graph bias neighbors _)
      (fun a prevU ha => node2vecStep_all (hpatStep_valid hg ha haux (bias.toBias exp) prevU) bias neighbors)
      job hstarts' ex

theorem walks_valid_example :
    let edges : List Edge := [⟨0, 1, 5⟩, ⟨2, 1, 4⟩, ⟨1, 0, 3⟩]
    let graph := TemporalGraph.build StdSort.stable {} edges 3 true (Schedule.serial edges true)
    let job := WalkJob.ofStarts [1, 0, 2] 4 7 (by decide)
    ValidWalks graph job (runWalksPat (Pcg64.generator ℚ) graph
      (Pat.build {} graph uniformBias kPatTrunkSizeMin (ForSchedule.serial _)) uniformBias job
      (Execution.serial ℚ 3)) :=
  (walks_valid StdSort.stable {} (Schedule.serial _ true) (by unfold EndpointsIn; decide) (nonnegDraws_unit ℚ)
    (Pcg64.generator ℚ) Pcg64.admissible (WalkJob.ofStarts [1, 0, 2] 4 7 (by decide))
    (by unfold WalkJob.StartsIn; decide) (Execution.serial ℚ 3)).1 uniformBias {} kPatTrunkSizeMin (ForSchedule.serial _)

end Tea
