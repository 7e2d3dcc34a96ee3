import Tea.Lib.ParallelFor
import Tea.Sampling.Rejection
import Tea.Sampling.Rng
/-!
# The walk engine

`runWalksImpl` runs the walks of a job in a parallel loop. Walk `i` draws from its own generator, seeded with `i`,
and fills its own slots of the output, from `i * maxWalkLen` on; the scratch buffers of a thread go from walk to
walk. An `Execution` says which thread runs which walk when, and what the scratch buffers hold at the start.

If what the sampler returns is independent of the scratch, a walk is a function of its start vertex, the seed and
its index (`walkOf`), and the run leaves the slots of all walks one behind the other (`runWalksImpl_eq`).
-/

namespace Tea

open Layout

variable {R P σ : Type}

/-- A sampler as the engine calls it: at `u`, before `t_prev`, coming from `prev_u`. -/
abbrev Sampler (R : Type) := (u tPrev prevU : Int) → SamplerScratch R → Draw R (SampledStep × SamplerScratch R)

/-- The arguments of a runner. The output buffers have the sizes that the engine expects of its caller. -/
structure WalkJob where
  startVertices : List Int
  numWalks : Nat
  maxWalkLen : Nat
  globalSeed : Nat
  walksOut : List NodeStep
  walkLensOut : List Nat
  starts_length : startVertices.length = numWalks
  maxWalkLen_pos : 0 < maxWalkLen
  walksOut_length : walksOut.length = numWalks * maxWalkLen
  walkLensOut_length : walkLensOut.length = numWalks

/-- A job with zero-initialised buffers. -/
def WalkJob.ofStarts (startVertices : List Int) (maxWalkLen globalSeed : Nat) (h : 0 < maxWalkLen) : WalkJob where
  startVertices := startVertices
  numWalks := startVertices.length
  maxWalkLen := maxWalkLen
  globalSeed := globalSeed
  walksOut := List.replicate (startVertices.length * maxWalkLen) ⟨0, 0⟩
  walkLensOut := List.replicate startVertices.length 0
  starts_length := rfl
  maxWalkLen_pos := h
  walksOut_length := List.length_replicate
  walkLensOut_length := List.length_replicate

/-- An execution of the parallel loop. -/
structure Execution (R : Type) (numWalks : Nat) where
  schedule : ForSchedule numWalks
  scratch : (thread : Nat) → SamplerScratch R

/-- One thread, with the empty buffers the code starts with. -/
def Execution.serial (R : Type) (numWalks : Nat) : Execution R numWalks := ⟨ForSchedule.serial numWalks, fun _ => {}⟩

/-- `WalkRunStats`. -/
structure WalkRunStats where
  numWalks : Nat
  totalSteps : Nat
  deadAtStart : Nat
deriving Repr, DecidableEq

/-- What a runner leaves in the buffers and returns. -/
structure WalkRun where
  walksOut : List NodeStep
  walkLensOut : List Nat
  stats : WalkRunStats
deriving Repr, DecidableEq

/-- The shared state of the loop: the output buffers and `total_steps_local`. -/
structure WalkState where
  walksOut : List NodeStep
  walkLensOut : List Nat
  totalSteps : Nat

/-- The start vertex of walk `i`. -/
def WalkJob.start (job : WalkJob) (i : Nat) : Int := job.startVertices.getD i 0

/-- The step loop: at most `steps` hops from `u`. -/
def hops (sample : Sampler R) : (steps : Nat) → (u tPrev prevU : Int) → SamplerScratch R →
    Draw R (List NodeStep × SamplerScratch R)
  | 0, _, _, _, scratch => return ([], scratch)
  | steps + 1, u, tPrev, prevU, scratch => do
      let (s, scratch) ← sample u tPrev prevU scratch
      if s.v = kWalkDeadSentinel then return ([], scratch)
      else
        let (rest, scratch) ← hops sample steps s.v s.t u scratch
        return (⟨s.v, s.t⟩ :: rest, scratch)

/-- The live slots of a walk and the padding of the dead tail. -/
def paddedSlots (maxWalkLen : Nat) (live : List NodeStep) : List NodeStep :=
  live ++ List.replicate (maxWalkLen - live.length) ⟨kWalkDeadSentinel, 0⟩

/-- One iteration of the loop: walk `i`. -/
def walkBody (gen : SeededGenerator R σ) (sample : Sampler R) (job : WalkJob) (i : Nat) (scratch : SamplerScratch R)
    (s : WalkState) : SamplerScratch R × WalkState :=
  let uStart := job.start i
  let rng := gen.seedWith job.globalSeed i
  let walked := ((hops sample (job.maxWalkLen - 1) uStart kSentinelStartTimestamp (-1) scratch).run gen.toGenerator
    rng).1
  let live := ⟨uStart, kSentinelStartTimestamp⟩ :: walked.1
  (walked.2,
    { walksOut := splice s.walksOut (i * job.maxWalkLen) (paddedSlots job.maxWalkLen live)
      walkLensOut := s.walkLensOut.set i live.length
      totalSteps := s.totalSteps + live.length })

/-- `run_walks_impl`. -/
def runWalksImpl (gen : SeededGenerator R σ) (sample : Sampler R) (job : WalkJob) (ex : Execution R job.numWalks) :
    WalkRun :=
  let s := parallelFor (walkBody gen sample job) ex.schedule.steps ex.scratch ⟨job.walksOut, job.walkLensOut, 0⟩
  { walksOut := s.walksOut
    walkLensOut := s.walkLensOut
    stats :=
      { numWalks := job.numWalks
        totalSteps := s.totalSteps
        deadAtStart := (List.range job.numWalks).countP fun i => s.walkLensOut.getD i 0 ≤ 1 } }

/-! ### The four runners -/

section runners

variable [Arith R]

/-- The sampler of `run_walks_pat`. -/
def patSampler (graph : TemporalGraph) (pat : Pat R P) (bias : Bias R P) : Sampler R :=
  fun u tPrev _ scratch => samplePat graph pat bias u tPrev scratch

/-- The sampler of `run_walks_hpat`. -/
def hpatSampler (graph : TemporalGraph) (hpat : Hpat R P) (bias : Bias R P) : Sampler R :=
  fun u tPrev _ scratch => sampleHpat graph hpat bias u tPrev scratch

/-- The sampler of `run_walks_pat_node2vec`. -/
def patNode2vecSampler (exp : R → R) (graph : TemporalGraph) (pat : Pat R (ExpParams R)) (bias : Node2VecBias R)
    (neighbors : NeighborSets) : Sampler R :=
  fun u tPrev prevU scratch => samplePatNode2vec exp graph pat bias neighbors u tPrev prevU scratch

/-- The sampler of `run_walks_hpat_node2vec`. -/
def hpatNode2vecSampler (exp : R → R) (graph : TemporalGraph) (hpat : Hpat R (ExpParams R)) (bias : Node2VecBias R)
    (neighbors : NeighborSets) : Sampler R :=
  fun u tPrev prevU scratch => sampleHpatNode2vec exp graph hpat bias neighbors u tPrev prevU scratch

/-- `run_walks_pat`. -/
def runWalksPat (gen : SeededGenerator R σ) (graph : TemporalGraph) (pat : Pat R P) (bias : Bias R P) (job : WalkJob)
    (ex : Execution R job.numWalks) : WalkRun :=
  runWalksImpl gen (patSampler graph pat bias) job ex

/-- `run_walks_hpat`. -/
def runWalksHpat (gen : SeededGenerator R σ) (graph : TemporalGraph) (hpat : Hpat R P) (bias : Bias R P)
    (job : WalkJob) (ex : Execution R job.numWalks) : WalkRun :=
  runWalksImpl gen (hpatSampler graph hpat bias) job ex

/-- `run_walks_pat_node2vec`. -/
def runWalksPatNode2vec (gen : SeededGenerator R σ) (exp : R → R) (graph : TemporalGraph) (pat : Pat R (ExpParams R))
    (bias : Node2VecBias R) (neighbors : NeighborSets) (job : WalkJob) (ex : Execution R job.numWalks) : WalkRun :=
  runWalksImpl gen (patNode2vecSampler exp graph pat bias neighbors) job ex

/-- `run_walks_hpat_node2vec`. -/
def runWalksHpatNode2vec (gen : SeededGenerator R σ) (exp : R → R) (graph : TemporalGraph)
    (hpat : Hpat R (ExpParams R)) (bias : Node2VecBias R) (neighbors : NeighborSets) (job : WalkJob)
    (ex : Execution R job.numWalks) : WalkRun :=
  runWalksImpl gen (hpatNode2vecSampler exp graph hpat bias neighbors) job ex

end runners

/-! ### A walk on its own -/

/-- A sampler up to its scratch. -/
abbrev StepFn (R : Type) := (u tPrev prevU : Int) → Draw R SampledStep

/-- What the sampler returns is independent of the scratch it finds. -/
def Sampler.Returns (sample : Sampler R) (step : StepFn R) : Prop :=
  ∀ u tPrev prevU scratch, Prod.fst <$> sample u tPrev prevU scratch = step u tPrev prevU

/-- The step loop without scratch. -/
def hopsOf (step : StepFn R) : (steps : Nat) → (u tPrev prevU : Int) → Draw R (List NodeStep)
  | 0, _, _, _ => return []
  | steps + 1, u, tPrev, prevU => do
      let s ← step u tPrev prevU
      if s.v = kWalkDeadSentinel then return []
      else
        let rest ← hopsOf step steps s.v s.t u
        return ⟨s.v, s.t⟩ :: rest

/-- The live slots of walk `i` from `uStart`. -/
def walkOf (gen : SeededGenerator R σ) (step : StepFn R) (maxWalkLen globalSeed : Nat) (uStart : Int) (i : Nat) :
    List NodeStep :=
  ⟨uStart, kSentinelStartTimestamp⟩ ::
    ((hopsOf step (maxWalkLen - 1) uStart kSentinelStartTimestamp (-1)).run gen.toGenerator
      (gen.seedWith globalSeed i)).1

theorem fst_hops {sample : Sampler R} {step : StepFn R} (h : sample.Returns step) (steps : Nat)
    (u tPrev prevU : Int) (scratch : SamplerScratch R) :
    Prod.fst <$> hops sample steps u tPrev prevU scratch = hopsOf step steps u tPrev prevU := by
  induction steps generalizing u tPrev prevU scratch with
  | zero => rfl
  | succ steps ih =>
      rw [hops, hopsOf, ← h u tPrev prevU scratch]
      refine Draw.fst_bind _ _ _ fun s scratch => ?_
      dsimp only
      split_ifs with hdead
      · rfl
      · rw [← ih s.v s.t u scratch]
        exact Draw.fst_bind _ _ _ fun _ _ => rfl

theorem length_hopsOf_le (g : Generator R σ) (step : StepFn R) (steps : Nat) (u tPrev prevU : Int) (s : σ) :
    ((hopsOf step steps u tPrev prevU).run g s).1.length ≤ steps := by
  induction steps generalizing u tPrev prevU s with
  | zero => exact le_rfl
  | succ steps ih =>
      rw [hopsOf, Draw.run_bind]
      split_ifs with hdead
      · exact Nat.zero_le _
      · rw [Draw.run_bind, Draw.run_pure]
        exact Nat.succ_le_succ (ih _ _ _ _)

section run

variable (gen : SeededGenerator R σ) {sample : Sampler R} {step : StepFn R} (h : sample.Returns step) (job : WalkJob)

/-- Walk `i` of a job. -/
def walkAt (step : StepFn R) (i : Nat) : List NodeStep :=
  walkOf gen step job.maxWalkLen job.globalSeed (job.start i) i

theorem walkAt_length_le (step : StepFn R) (i : Nat) : (walkAt gen job step i).length ≤ job.maxWalkLen := by
  have hlen := length_hopsOf_le gen.toGenerator step (job.maxWalkLen - 1) (job.start i) kSentinelStartTimestamp (-1)
    (gen.seedWith job.globalSeed i)
  have hpos := job.maxWalkLen_pos
  rw [walkAt, walkOf, List.length_cons]
  omega

theorem length_paddedSlots {maxWalkLen : Nat} {live : List NodeStep} (hlen : live.length ≤ maxWalkLen) :
    (paddedSlots maxWalkLen live).length = maxWalkLen := by
  rw [paddedSlots, List.length_append, List.length_replicate]
  omega

include h in
theorem walkBody_snd (i : Nat) (scratch : SamplerScratch R) (s : WalkState) :
    (walkBody gen sample job i scratch s).2 =
      { walksOut := splice s.walksOut (i * job.maxWalkLen) (paddedSlots job.maxWalkLen (walkAt gen job step i))
        walkLensOut := s.walkLensOut.set i (walkAt gen job step i).length
        totalSteps := s.totalSteps + (walkAt gen job step i).length } := by
  have hrun := Draw.run_map gen.toGenerator
    (hops sample (job.maxWalkLen - 1) (job.start i) kSentinelStartTimestamp (-1) scratch) Prod.fst
    (gen.seedWith job.globalSeed i)
  rw [fst_hops h] at hrun
  unfold walkBody walkAt walkOf
  rw [hrun]

/-- The slots of all walks. -/
def allSlots (step : StepFn R) : List (List NodeStep) :=
  (List.range job.numWalks).map fun i => paddedSlots job.maxWalkLen (walkAt gen job step i)

theorem start_allSlots (step : StepFn R) {i : Nat} (hi : i ≤ job.numWalks) :
    start (allSlots gen job step) i = i * job.maxWalkLen := by
  have hlen : (allSlots gen job step).map List.length = List.replicate job.numWalks job.maxWalkLen := by
    rw [allSlots, List.map_map, List.eq_replicate_iff]
    refine ⟨by simp, fun len hmem => ?_⟩
    obtain ⟨j, -, rfl⟩ := List.mem_map.mp hmem
    exact length_paddedSlots (walkAt_length_le gen job step j)
  rw [start, hlen, List.take_replicate, Nat.min_eq_left hi, List.sum_replicate_nat]

/-- The buffers keep their sizes. -/
def WalkState.Sized (job : WalkJob) (s : WalkState) : Prop :=
  s.walksOut.length = job.numWalks * job.maxWalkLen ∧ s.walkLensOut.length = job.numWalks

include h in
theorem walkBody_sized (i : Nat) (scratch : SamplerScratch R) (s : WalkState) (hi : i < job.numWalks)
    (hs : s.Sized job) : (walkBody gen sample job i scratch s).2.Sized job := by
  rw [walkBody_snd gen h]
  have hend : (i + 1) * job.maxWalkLen ≤ job.numWalks * job.maxWalkLen := Nat.mul_le_mul_right _ hi
  refine ⟨?_, by rw [List.length_set, hs.2]⟩
  rw [length_splice, hs.1]
  rw [length_paddedSlots (walkAt_length_le gen job step i), hs.1]
  rwa [Nat.succ_mul] at hend

include h in
/-- **The result of a run**: the slots of the walks one behind the other, their lengths, and the statistics. -/
theorem runWalksImpl_eq (ex : Execution R job.numWalks) : runWalksImpl gen sample job ex =
    { walksOut := (allSlots gen job step).flatten
      walkLensOut := (List.range job.numWalks).map fun i => (walkAt gen job step i).length
      stats :=
        { numWalks := job.numWalks
          totalSteps := ((List.range job.numWalks).map fun i => (walkAt gen job step i).length).sum
          deadAtStart := (List.range job.numWalks).countP fun i => (walkAt gen job step i).length ≤ 1 } } := by
  have hsized : WalkState.Sized job ⟨job.walksOut, job.walkLensOut, 0⟩ := ⟨job.walksOut_length, job.walkLensOut_length⟩
  have hkeep := walkBody_sized gen h job
  have hslots := parallelFor_blocks (walkBody gen sample job) WalkState.walksOut
    (fun i => paddedSlots job.maxWalkLen (walkAt gen job step i)) (WalkState.Sized job)
    (fun i scratch s hi hs => by rw [walkBody_snd gen h, ← start_allSlots gen job step hi.le]; rfl) hkeep
    ex.schedule ex.scratch _ hsized (by
      show job.walksOut.length = (allSlots gen job step).flatten.length
      have hlen : (allSlots gen job step).length = job.numWalks := by simp [allSlots]
      rw [job.walksOut_length, ← start_length, hlen, start_allSlots gen job step le_rfl])
  have hlens := parallelFor_blocks (walkBody gen sample job) WalkState.walkLensOut
    (fun i => [(walkAt gen job step i).length]) (WalkState.Sized job)
    (fun i scratch s hi hs => by
      rw [walkBody_snd gen h, start_singletons _ hi.le]
      exact set_eq_splice (by rw [hs.2]; exact hi) _) hkeep ex.schedule ex.scratch
    _ hsized (by rw [flatten_singletons]; simpa using job.walkLensOut_length)
  have hsteps := parallelFor_proj (walkBody gen sample job) WalkState.totalSteps
    (fun total i => total + (walkAt gen job step i).length) (WalkState.Sized job)
    (fun i scratch s hi hs => by rw [walkBody_snd gen h]) hkeep ex.schedule ex.scratch _ hsized
  rw [flatten_singletons] at hlens
  have hsum : ex.schedule.order.foldl (fun total i => total + (walkAt gen job step i).length) 0 =
      ((List.range job.numWalks).map fun i => (walkAt gen job step i).length).sum := by
    rw [← List.foldl_map, ← List.sum_eq_foldl, (ex.schedule.order_perm.map _).sum_eq]
  unfold runWalksImpl
  dsimp only at hslots hlens hsteps ⊢
  rw [hslots, hlens, hsteps, hsum]
  congr 2
  refine List.countP_congr fun i hi => ?_
  rw [List.mem_range] at hi
  simp [List.getD_eq_getElem?_getD, hi]

end run

end Tea
