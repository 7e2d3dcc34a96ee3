import Tea.Cli.Args
import Tea.Walk.Starts
/-!
# The walk program

`tea_walk` lists the start vertices, every vertex with entries `num_walks_per_node` times, and hands the list to a runner.
The list can be longer than `int32_t` counts: the buffers are sized with its length, but the runner gets the length narrowed.
A run covers the start list exactly if the narrowing changes nothing (`teaWalk_covers_iff`).
-/

namespace Tea.Cli

open Arith CString

variable {R P ρ : Type}

/-! ### The program -/

/-- The environment of a run: `TEA_DISABLE_AUX`, and how the threads run the parallel loops. -/
structure LaunchEnv (R : Type) (graph : TemporalGraph) where
  teaDisableAux : Option String
  tables : ForSchedule graph.numVertices
  aux : ForSchedule graph.numVertices
  neighbors : OutSchedule graph
  walks : (numWalks : Nat) → Execution R numWalks

/-- One thread, and the variable not set. -/
def LaunchEnv.serial (R : Type) (graph : TemporalGraph) : LaunchEnv R graph where
  teaDisableAux := none
  tables := ForSchedule.serial _
  aux := ForSchedule.serial _
  neighbors := OutSchedule.serial graph
  walks := Execution.serial R

/-- The buffers after a run, and `stats`. -/
structure LaunchedRun where
  walksOut : List NodeStep
  walkLensOut : List Nat
  numWalks : Int
  totalSteps : Nat
  deadAtStart : Nat
deriving Repr, DecidableEq

def globalSeed : Nat := 0xc0ffeed00dd00d

/-- `aux_budget`. -/
def auxBudget (teaDisableAux : Option String) : Nat :=
  let disableAux := (teaDisableAux.map fun env => deref env.toList == '1').getD false
  if disableAux then 0 else kAuxIndexMaxBytes

/-- The run with buffers for all start vertices. The runner gets the number of start vertices as `int32_t`, and touches the
slots of as many walks only. -/
def launch (starts : List Int) (maxWalkLen : Nat) (hlen : 0 < maxWalkLen)
    (run : (job : WalkJob) → Execution R job.numWalks → WalkRun) (walks : (numWalks : Nat) → Execution R numWalks) :
    LaunchedRun :=
  let count := toInt32 starts.length
  let job := WalkJob.ofStarts (starts.take count.toNat) maxWalkLen globalSeed hlen
  let r := run job (walks job.numWalks)
  let untouched := starts.length - job.numWalks
  { walksOut := r.walksOut ++ List.replicate (untouched * maxWalkLen) ⟨0, 0⟩
    walkLensOut := r.walkLensOut ++ List.replicate untouched 0
    numWalks := count
    totalSteps := r.stats.totalSteps
    deadAtStart := r.stats.deadAtStart }

theorem CliArgs.maxLen_pos (args : CliArgs R) : 0 < args.maxWalkLen.toNat := by
  have := args.maxWalkLen_pos
  omega

section program

variable [Arith R] (gen : SeededGenerator R ρ) (exp : R → R) (graph : TemporalGraph) (args : CliArgs R)
  (env : LaunchEnv R graph)

/-- The start list of a run. -/
def CliArgs.starts : List Int := makeAllNodesStarts graph args.numWalksPerNode.toNat

/-- `run_non_node2vec`. -/
def runNonNode2vec (bias : Bias R P) : Option LaunchedRun :=
  let starts := args.starts graph
  if starts.length = 0 then none
  else
    some (launch starts args.maxWalkLen.toNat args.maxLen_pos
      (fun job ex =>
        match args.variant with
        | .hpat =>
            runWalksHpat gen graph (Hpat.build {} graph bias (auxBudget env.teaDisableAux) env.tables env.aux) bias job ex
        | .pat => runWalksPat gen graph (Pat.build {} graph bias kPatTrunkSizeMin env.tables) bias job ex) env.walks)

/-- `run_node2vec`. -/
def runNode2vec : Option LaunchedRun :=
  let bias : Node2VecBias R := { p := 1, q := ofInt 2, timescaleBound := args.timescaleBound }
  let neighbors := NeighborSets.build {} graph args.isDirected env.neighbors
  some (launch (args.starts graph) args.maxWalkLen.toNat args.maxLen_pos
    (fun job ex =>
      match args.variant with
      | .hpat =>
          runWalksHpatNode2vec gen exp graph
            (Hpat.build {} graph (bias.toBias exp) (auxBudget env.teaDisableAux) env.tables env.aux) bias neighbors job ex
      | .pat =>
          runWalksPatNode2vec gen exp graph (Pat.build {} graph (bias.toBias exp) kPatTrunkSizeMin env.tables) bias
            neighbors job ex) env.walks)

/-- The dispatch of `main` by picker. -/
def teaWalk : Option LaunchedRun :=
  match args.picker with
  | .uniform => runNonNode2vec gen graph args env uniformBias
  | .linear => runNonNode2vec gen graph args env linearBias
  | .exponential =>
      runNonNode2vec gen graph args env
        (({ timescaleBound := args.timescaleBound } : ExponentialBias R).toBias exp)
  | .temporalNode2vec => runNode2vec gen exp graph args env

theorem runNonNode2vec_eq (bias : Bias R P) : ∃ (sample : Sampler R) (step : StepFn R), sample.Returns step ∧
    runNonNode2vec gen graph args env bias =
      if (args.starts graph).length = 0 then none
      else some (launch (args.starts graph) args.maxWalkLen.toNat args.maxLen_pos (runWalksImpl gen sample) env.walks) := by
  unfold runNonNode2vec
  cases args.variant with
  | hpat =>
      exact ⟨_, _, hpatSampler_returns graph
        (Hpat.build {} graph bias (auxBudget env.teaDisableAux) env.tables env.aux) bias, rfl⟩
  | pat => exact ⟨_, _, patSampler_returns graph (Pat.build {} graph bias kPatTrunkSizeMin env.tables) bias, rfl⟩

theorem runNode2vec_eq : ∃ (sample : Sampler R) (step : StepFn R), sample.Returns step ∧
    runNode2vec gen exp graph args env =
      some (launch (args.starts graph) args.maxWalkLen.toNat args.maxLen_pos (runWalksImpl gen sample) env.walks) := by
  unfold runNode2vec
  cases args.variant with
  | hpat => exact ⟨_, _, hpatNode2vecSampler_returns exp graph _ _ (Hpat.build {} graph _ _ env.tables env.aux), rfl⟩
  | pat => exact ⟨_, _, patNode2vecSampler_returns exp graph _ _ (Pat.build {} graph _ kPatTrunkSizeMin env.tables), rfl⟩

/-- Whatever is dispatched is a launch of the engine, but for an empty start list. -/
theorem teaWalk_cases : ∃ (sample : Sampler R) (step : StepFn R), sample.Returns step ∧
    (teaWalk gen exp graph args env = some
        (launch (args.starts graph) args.maxWalkLen.toNat args.maxLen_pos (runWalksImpl gen sample) env.walks) ∨
      ((args.starts graph).length = 0 ∧ teaWalk gen exp graph args env = none)) := by
  have hnon : ∀ {P : Type} (bias : Bias R P), ∃ (sample : Sampler R) (step : StepFn R), sample.Returns step ∧
      (runNonNode2vec gen graph args env bias = some
          (launch (args.starts graph) args.maxWalkLen.toNat args.maxLen_pos (runWalksImpl gen sample) env.walks) ∨
        ((args.starts graph).length = 0 ∧ runNonNode2vec gen graph args env bias = none)) := by
    intro P bias
    obtain ⟨sample, step, hreturns, hrun⟩ := runNonNode2vec_eq gen graph args env bias
    refine ⟨sample, step, hreturns, ?_⟩
    rw [hrun]
    by_cases hempty : (args.starts graph).length = 0
    · exact .inr ⟨hempty, if_pos hempty⟩
    · exact .inl (if_neg hempty)
  unfold teaWalk
  cases args.picker with
  | uniform => exact hnon uniformBias
  | linear => exact hnon linearBias
  | exponential => exact hnon _
  | temporalNode2vec =>
      obtain ⟨sample, step, hreturns, hrun⟩ := runNode2vec_eq gen exp graph args env
      exact ⟨sample, step, hreturns, .inl hrun⟩

end program

/-! ### The start list -/

section starts

variable (graph : TemporalGraph) (walksPerNode : Nat)

/-- The number of vertices with entries. -/
def activeVertices : Nat := (List.range graph.numVertices).countP fun u => 0 < graph.degree u

theorem length_makeAllNodesStarts :
    (makeAllNodesStarts graph walksPerNode).length = activeVertices graph * walksPerNode := by
  unfold makeAllNodesStarts activeVertices
  induction graph.numVertices with
  | zero => simp
  | succ n ih =>
      rw [List.range_succ, List.flatMap_append, List.length_append, ih, List.countP_append, Nat.add_mul]
      by_cases hD : 0 < graph.degree n <;> simp [hD]

theorem count_makeAllNodesStarts {u : Nat} (hu : u < graph.numVertices) (hD : 0 < graph.degree u) :
    (makeAllNodesStarts graph walksPerNode).count (u : Int) = walksPerNode := by
  have hone : ∀ n, ((List.range n).flatMap fun v =>
      if 0 < graph.degree v then List.replicate walksPerNode (v : Int) else []).count (u : Int) =
        if u < n then walksPerNode else 0 := by
    intro n
    induction n with
    | zero => simp
    | succ n ih =>
        rw [List.range_succ, List.flatMap_append, List.count_append, ih, List.flatMap_singleton]
        obtain rfl | hne := eq_or_ne u n
        · simp [hD]
        · have hzero : (if 0 < graph.degree n then List.replicate walksPerNode (n : Int) else []).count (u : Int) = 0 := by
            split_ifs
            · rw [List.count_replicate, if_neg]
              simpa using fun h => hne h.symm
            · rfl
          rw [hzero, Nat.add_zero]
          have : u < n + 1 ↔ u < n := by omega
          simp only [this]
  rw [makeAllNodesStarts, hone, if_pos hu]

end starts

/-! ### Which runs cover the start list -/

/-- Every walk of the list is run: `stats.num_walks` is their number, every length is written, and every walk of the output
starts where the list says. -/
structure LaunchedRun.Complete (run : LaunchedRun) (starts : List Int) (maxWalkLen : Nat) : Prop where
  numWalks : run.numWalks = starts.length
  written : ∀ i < starts.length, 1 ≤ run.walkLensOut.getD i 0
  start : ∀ i < starts.length, run.walksOut.getD (i * maxWalkLen) ⟨0, 0⟩ = ⟨starts.getD i 0, kSentinelStartTimestamp⟩

section launch

variable {starts : List Int} {maxWalkLen : Nat} (hlen : 0 < maxWalkLen)
  (walks : (numWalks : Nat) → Execution R numWalks)

theorem numWalks_launch (run : (job : WalkJob) → Execution R job.numWalks → WalkRun) :
    (launch starts maxWalkLen hlen run walks).numWalks = toInt32 starts.length := by
  dsimp only [launch]

theorem launch_of_fits (hfits : starts.length < 2 ^ 31) (run : (job : WalkJob) → Execution R job.numWalks → WalkRun) :
    launch starts maxWalkLen hlen run walks =
      let job := WalkJob.ofStarts starts maxWalkLen globalSeed hlen
      let r := run job (walks job.numWalks)
      ⟨r.walksOut, r.walkLensOut, starts.length, r.stats.totalSteps, r.stats.deadAtStart⟩ := by
  have hcount : toInt32 starts.length = starts.length := toInt32_natCast_eq_iff.mpr hfits
  have htake : starts.take (toInt32 starts.length).toNat = starts := by
    rw [hcount, Int.toNat_natCast, List.take_length]
  have huntouched : starts.length - (WalkJob.ofStarts starts maxWalkLen globalSeed hlen).numWalks = 0 :=
    Nat.sub_self _
  dsimp only [launch]
  rw [htake, huntouched, hcount, Nat.zero_mul, List.replicate_zero, List.replicate_zero, List.append_nil, List.append_nil]

variable (starts) in
/-- **A launch is complete exactly if `int32_t` counts the list.** -/
theorem launch_complete_iff (gen : SeededGenerator R ρ) {sample : Sampler R} {step : StepFn R} (h : sample.Returns step) :
    (launch starts maxWalkLen hlen (runWalksImpl gen sample) walks).Complete starts maxWalkLen ↔
      starts.length < 2 ^ 31 := by
  constructor
  · intro hcomplete
    have hcount := hcomplete.numWalks
    rw [numWalks_launch] at hcount
    exact toInt32_natCast_eq_iff.mp hcount
  · intro hfits
    rw [launch_of_fits hlen walks hfits]
    refine ⟨rfl, fun i hi => ?_, fun i hi => ?_⟩
    · have hwalk := len_runWalksImpl gen h (WalkJob.ofStarts starts maxWalkLen globalSeed hlen) (walks _) hi
      exact (Nat.succ_pos _).trans_eq hwalk.symm
    · exact slot_live gen h (WalkJob.ofStarts starts maxWalkLen globalSeed hlen) (walks _) hi (k := 0) (Nat.succ_pos _)

end launch

/-- What a run promises: it is complete, and every vertex with entries gets its walks. -/
structure LaunchedRun.Covers (run : LaunchedRun) (graph : TemporalGraph) (args : CliArgs R) : Prop where
  complete : run.Complete (args.starts graph) args.maxWalkLen.toNat
  perVertex : ∀ u < graph.numVertices, 0 < graph.degree u →
    ((List.range (args.starts graph).length).countP fun i =>
      run.walksOut.getD (i * args.maxWalkLen.toNat) ⟨0, 0⟩ = ⟨(u : Int), kSentinelStartTimestamp⟩) =
        args.numWalksPerNode.toNat

theorem countP_range_getD (xs : List Int) (a : Int) :
    ((List.range xs.length).countP fun i => xs.getD i 0 = a) = xs.count a := by
  have hmap : (List.range xs.length).map (fun i => xs.getD i 0) = xs := by
    apply List.ext_getElem (by simp)
    intro i _ hi
    rw [List.getElem_map, List.getElem_range, List.getD_eq_getElem _ _ hi]
  conv_rhs => rw [← hmap, List.count, List.countP_map]
  apply List.countP_congr
  simp

theorem LaunchedRun.Complete.covers {run : LaunchedRun} {graph : TemporalGraph} {args : CliArgs R}
    (h : run.Complete (args.starts graph) args.maxWalkLen.toNat) : run.Covers graph args := by
  refine ⟨h, fun u hu hD => ?_⟩
  calc ((List.range (args.starts graph).length).countP fun i =>
        run.walksOut.getD (i * args.maxWalkLen.toNat) ⟨0, 0⟩ = ⟨(u : Int), kSentinelStartTimestamp⟩)
      = (List.range (args.starts graph).length).countP fun i => (args.starts graph).getD i 0 = (u : Int) := by
        apply List.countP_congr
        intro i hi
        rw [h.start i (List.mem_range.mp hi)]
        simp
    _ = (args.starts graph).count (u : Int) := countP_range_getD _ _
    _ = args.numWalksPerNode.toNat := count_makeAllNodesStarts graph _ hu hD

section runs

variable [Arith R] (gen : SeededGenerator R ρ) (exp : R → R) (graph : TemporalGraph) (args : CliArgs R)
  (env : LaunchEnv R graph)

omit [Arith R] in
theorem length_starts : (args.starts graph).length = activeVertices graph * args.numWalksPerNode.toNat :=
  length_makeAllNodesStarts graph _

theorem numWalks_teaWalk {run : LaunchedRun} (hrun : teaWalk gen exp graph args env = some run) :
    run.numWalks = toInt32 (activeVertices graph * args.numWalksPerNode.toNat : Nat) := by
  obtain ⟨sample, step, -, hsome | ⟨-, hnone⟩⟩ := teaWalk_cases gen exp graph args env
  · rw [hsome, Option.some.injEq] at hrun
    rw [← hrun, numWalks_launch, length_starts]
  · rw [hnone] at hrun
    cases hrun

/-- **Which runs cover the start list**: those whose number of walks is an `int32_t`. -/
theorem teaWalk_covers_iff : (∀ run ∈ teaWalk gen exp graph args env, run.Covers graph args) ↔
    activeVertices graph * args.numWalksPerNode.toNat < 2 ^ 31 := by
  obtain ⟨sample, step, hreturns, hrun | ⟨hempty, hrun⟩⟩ := teaWalk_cases gen exp graph args env
  · have hiff := launch_complete_iff (args.starts graph) args.maxLen_pos env.walks gen hreturns
    rw [hrun, ← length_starts, ← hiff]
    simp only [Option.mem_some_iff, forall_eq']
    exact ⟨LaunchedRun.Covers.complete, LaunchedRun.Complete.covers⟩
  · rw [hrun, ← length_starts, hempty]
    simp

end runs

/-- Two vertices with entries, and `2^30` walks from each. -/
theorem teaWalk_not_covers :
    let graph := TemporalGraph.build StdSort.stable {} [⟨0, 1, 5⟩, ⟨1, 0, 5⟩] 2 true (Schedule.serial _ true)
    ∃ args : CliArgs Rat,
      parseCliArgs (fun _ => 0) ["tea_walk", "edges.csv", "uniform", "tea_pat", "1", "1073741824", "1"] = .ok args ∧
      ∃ run, teaWalk (Pcg64.generator Rat) (fun _ => 1) graph args (LaunchEnv.serial Rat graph) = some run ∧
        run.numWalks = -2 ^ 31 ∧ ¬ run.Covers graph args := by
  intro graph
  have hactive : activeVertices graph = 2 := by decide
  let args : CliArgs Rat :=
    ⟨"edges.csv", .uniform, .pat, true, 1073741824, 1, ofInt (-1), by decide, by decide, by decide, by decide⟩
  have hlength : (args.starts graph).length = 2 * 1073741824 := by
    rw [length_starts, hactive]
    rfl
  refine ⟨args, rfl, ?_⟩
  obtain ⟨sample, step, -, hrun | ⟨hempty, -⟩⟩ :=
    teaWalk_cases (Pcg64.generator Rat) (fun _ => 1) graph args (LaunchEnv.serial Rat graph)
  · have hnum := numWalks_teaWalk _ _ graph args _ hrun
    have hnarrow : toInt32 (2 * args.numWalksPerNode.toNat : Nat) = -2 ^ 31 := by decide
    rw [hactive, hnarrow] at hnum
    refine ⟨_, hrun, hnum, fun hcovers => ?_⟩
    have hclaimed := hcovers.complete.numWalks
    rw [hlength, hnum] at hclaimed
    exact absurd hclaimed (by decide)
  · omega

end Tea.Cli
