import Tea.Cli.Run
import Tea.Cli.Verify
import Tea.Csv.Safe
/-!
# The two programs

`main` of `tea_walk` and of `tea_verify_walks`, from the command line to the exit status. Everything that a program finds
around it is a `World`: the files, what the memory holds behind the lines, the functions of the C library, the sorting
function, how the threads run the parallel loops. The programs end in the ways of `Stop` if not at their last line.

Both programs launch the same run (`teaWalk_eq`, `dispatch_eq`). The verifier passes it if all walks are handed over to the
runner, and else finds the first that is not (`verifyEvery_launch_fits`, `verifyEvery_launch_narrowed`).

Memory does not run out, and what is only printed is left out. Nothing is stated about the build of a file whose ids are
not in range (`SafeToBuild`).
-/

namespace Tea.Cli

open Arith CString Csv Check

variable {R P ρ : Type}

/-! ### The programs -/

/-- What a program finds around it. -/
structure World (R ρ : Type) where
  gen : SeededGenerator R ρ
  atof : String → R
  exp : R → R
  sort : StdSort
  file : (path : String) → Option (List Char)
  memory : Memory
  schedule : (edges : List Edge) → (isDirected : Bool) → Schedule edges isDirected
  env : (graph : TemporalGraph) → LaunchEnv R graph

/-- How a program ends before the last line of `main`. -/
inductive Stop
  /-- `std::exit(code)` after the usage. -/
  | exit (code : Nat)
  /-- An exception that `main` catches. -/
  | thrown (what : String)
  /-- `die_on_step`. -/
  | died (failure : StepFailure)
  /-- A read behind the end of the memory, or an addition that overflows; the language promises nothing. -/
  | undefined
deriving Repr, DecidableEq

def Stop.ofRefusal : Refusal → Stop
  | .exit code => .exit code
  | .thrown what => .thrown what

def Stop.ofFault : Fault → Stop
  | .thrown what => .thrown what
  | .outOfBounds => .undefined

/-- The exit status; `onThrow` is what `main` returns after an exception. -/
def exitStatus {α : Type} (onThrow : Nat) : Except Stop α → Option Nat
  | .ok _ => some 0
  | .error (.exit code) => some code
  | .error (.thrown _) => some onThrow
  | .error (.died _) => some 2
  | .error .undefined => none

section programs

variable [Arith R] (world : World R ρ)

/-- `parse_cli_args` and `read_edges_csv`, the first lines of both programs. -/
def loadInput (argv : List String) : Except Stop (CliArgs R × List Edge) := do
  let args ← (parseCliArgs world.atof argv).mapError Stop.ofRefusal
  let edges ← (readEdgesCsv world.memory args.filePath (world.file args.filePath)).mapError Stop.ofFault
  return (args, edges)

/-- The graph that both programs build. -/
def buildGraph (args : CliArgs R) (edges : List Edge) : TemporalGraph :=
  TemporalGraph.build world.sort {} edges (numVerticesOf edges) args.isDirected (world.schedule edges args.isDirected)

/-- The build of both programs, with its `int32_t` additions. -/
def buildGraphInt32 (args : CliArgs R) (edges : List Edge) : Except Stop TemporalGraph :=
  match TemporalGraph.buildInt32 world.sort {} edges (numVerticesOf edges) args.isDirected
      (world.schedule edges args.isDirected) with
  | none => throw .undefined
  | some graph => return graph

/-- `main` of `tea_walk`. -/
def teaWalkMain (argv : List String) : Except Stop (Option LaunchedRun) := do
  let (args, edges) ← loadInput world argv
  let graph ← buildGraphInt32 world args edges
  return teaWalk world.gen world.exp graph args (world.env graph)

/-- The status that `tea_walk` exits with. -/
def teaWalkStatus (argv : List String) : Option Nat := exitStatus 2 (teaWalkMain world argv)

end programs

section runners

variable [Arith R] (gen : SeededGenerator R ρ) (exp : R → R) (graph : TemporalGraph) (args : CliArgs R)
  (env : LaunchEnv R graph)

/-- What `run_non_node2vec` of both programs builds and runs. -/
def nonNode2vecRunner (bias : Bias R P) (job : WalkJob) (ex : Execution R job.numWalks) : WalkRun :=
  match args.variant with
  | .hpat =>
      runWalksHpat gen graph (Hpat.build {} graph bias (auxBudget env.teaDisableAux) env.tables env.aux) bias job ex
  | .pat => runWalksPat gen graph (Pat.build {} graph bias kPatTrunkSizeMin env.tables) bias job ex

/-- What `run_node2vec` of both programs builds and runs. -/
def node2vecRunner (job : WalkJob) (ex : Execution R job.numWalks) : WalkRun :=
  let bias : Node2VecBias R := { p := 1, q := ofInt 2, timescaleBound := args.timescaleBound }
  let neighbors := NeighborSets.build {} graph args.isDirected env.neighbors
  match args.variant with
  | .hpat =>
      runWalksHpatNode2vec gen exp graph
        (Hpat.build {} graph (bias.toBias exp) (auxBudget env.teaDisableAux) env.tables env.aux) bias neighbors job ex
  | .pat =>
      runWalksPatNode2vec gen exp graph (Pat.build {} graph (bias.toBias exp) kPatTrunkSizeMin env.tables) bias
        neighbors job ex

end runners

/-- Slot `k` of walk `i`. -/
def LaunchedRun.slot (run : LaunchedRun) (maxWalkLen i k : Nat) : NodeStep :=
  run.walksOut.getD (i * maxWalkLen + k) ⟨0, 0⟩

/-- The length of walk `i`. -/
def LaunchedRun.len (run : LaunchedRun) (i : Nat) : Nat := run.walkLensOut.getD i 0

/-- The verification loop of `tea_verify_walks` over the buffers of a run. -/
def verifyEvery (graph : TemporalGraph) (numWalks maxWalkLen : Nat) (run : LaunchedRun) : Except StepFailure VerifyStats :=
  (List.range' 0 numWalks).foldlM
    (fun stats i => verifyWalk graph (run.slot maxWalkLen i) (run.len i) maxWalkLen i stats) {}

namespace Verify

variable [Arith R] (gen : SeededGenerator R ρ) (exp : R → R) (graph : TemporalGraph) (args : CliArgs R)
  (env : LaunchEnv R graph)

/-- `run_non_node2vec` of the verifier. -/
def runNonNode2vec (bias : Bias R P) : Except StepFailure VerifyStats :=
  verifyEvery graph (args.starts graph).length args.maxWalkLen.toNat
    (launch (args.starts graph) args.maxWalkLen.toNat args.maxLen_pos (nonNode2vecRunner gen graph args env bias) env.walks)

/-- `run_node2vec` of the verifier. -/
def runNode2vec : Except StepFailure VerifyStats :=
  verifyEvery graph (args.starts graph).length args.maxWalkLen.toNat
    (launch (args.starts graph) args.maxWalkLen.toNat args.maxLen_pos (node2vecRunner gen exp graph args env) env.walks)

/-- The dispatch of `main` by picker. -/
def dispatch : Except StepFailure VerifyStats :=
  match args.picker with
  | .uniform => runNonNode2vec gen graph args env uniformBias
  | .linear => runNonNode2vec gen graph args env linearBias
  | .exponential =>
      runNonNode2vec gen graph args env
        (({ timescaleBound := args.timescaleBound } : ExponentialBias R).toBias exp)
  | .temporalNode2vec => runNode2vec gen exp graph args env

end Verify

/-- `main` of `tea_verify_walks`. -/
def verifyMain [Arith R] (world : World R ρ) (argv : List String) : Except Stop VerifyStats := do
  let (args, edges) ← loadInput world argv
  let graph ← buildGraphInt32 world args edges
  (Verify.dispatch world.gen world.exp graph args (world.env graph)).mapError Stop.died

/-- The status that `tea_verify_walks` exits with. -/
def verifyStatus [Arith R] (world : World R ρ) (argv : List String) : Option Nat := exitStatus 1 (verifyMain world argv)

/-! ### The run that both programs launch -/

section launched

variable [Arith R] (gen : SeededGenerator R ρ) (exp : R → R) (graph : TemporalGraph) (args : CliArgs R)
  (env : LaunchEnv R graph)

/-- The runner of a command line. -/
def runner : (job : WalkJob) → Execution R job.numWalks → WalkRun :=
  match args.picker with
  | .uniform => nonNode2vecRunner gen graph args env uniformBias
  | .linear => nonNode2vecRunner gen graph args env linearBias
  | .exponential =>
      nonNode2vecRunner gen graph args env (({ timescaleBound := args.timescaleBound } : ExponentialBias R).toBias exp)
  | .temporalNode2vec => node2vecRunner gen exp graph args env

def launched : LaunchedRun :=
  launch (args.starts graph) args.maxWalkLen.toNat args.maxLen_pos (runner gen exp graph args env) env.walks

/-- `tea_walk` leaves the run out if there is no start vertex, unless for node2vec. -/
theorem teaWalk_eq : teaWalk gen exp graph args env =
    if (args.starts graph).length = 0 ∧ args.picker ≠ .temporalNode2vec then none
    else some (launched gen exp graph args env) := by
  have hnon : ∀ {P : Type} (bias : Bias R P), runNonNode2vec gen graph args env bias =
      if (args.starts graph).length = 0 then none
      else some (launch (args.starts graph) args.maxWalkLen.toNat args.maxLen_pos
        (nonNode2vecRunner gen graph args env bias) env.walks) := fun bias => rfl
  unfold teaWalk launched runner
  cases args.picker with
  | temporalNode2vec => simp only [ne_eq, not_true_eq_false, and_false, if_false]; rfl
  | uniform => simp only [hnon, ne_eq, reduceCtorEq, not_false_eq_true, and_true]
  | linear => simp only [hnon, ne_eq, reduceCtorEq, not_false_eq_true, and_true]
  | exponential => simp only [hnon, ne_eq, reduceCtorEq, not_false_eq_true, and_true]

/-- The verifier launches the same run, and one without walks too. -/
theorem dispatch_eq : Verify.dispatch gen exp graph args env =
    verifyEvery graph (args.starts graph).length args.maxWalkLen.toNat (launched gen exp graph args env) := by
  unfold Verify.dispatch launched runner
  cases args.picker <;> rfl

variable {graph} in
theorem runner_valid (hg : graph.WellFormed) {U : R → Prop} (hU : NonnegDraws U)
    (hgen : gen.toGenerator.Admissible U) (job : WalkJob) (hstarts : job.StartsIn graph.numVertices)
    (ex : Execution R job.numWalks) : ValidWalks graph job (runner gen exp graph args env job ex) := by
  have hnon : ∀ {P : Type} (bias : Bias R P), ValidWalks graph job (nonNode2vecRunner gen graph args env bias job ex) := by
    intro P bias
    unfold nonNode2vecRunner
    cases args.variant with
    | hpat =>
        obtain ⟨aux, haux, htables⟩ := Hpat.build_renewed hg bias (Hpat.renews_fresh _) env.tables env.aux
        rw [htables]
        exact runWalksImpl_valid hgen (hpatSampler_returns graph _ bias)
          (fun a prevU ha => hpatStep_valid hg ha haux bias prevU) job hstarts ex
    | pat =>
        dsimp only
        rw [Pat.build_eq hg]
        exact runWalksImpl_valid hgen (patSampler_returns graph _ bias)
          (fun a prevU ha => patStep_valid hg ha hU bias kPatTrunkSizeMin prevU) job hstarts ex
  unfold runner
  cases args.picker with
  | uniform => exact hnon _
  | linear => exact hnon _
  | exponential => exact hnon _
  | temporalNode2vec =>
      unfold node2vecRunner
      set bias : Node2VecBias R := { p := 1, q := ofInt 2, timescaleBound := args.timescaleBound }
      cases args.variant with
      | hpat =>
          obtain ⟨aux, haux, htables⟩ :=
            Hpat.build_renewed hg (bias.toBias exp) (Hpat.renews_fresh _) env.tables env.aux
          dsimp only
          rw [htables]
          exact runWalksImpl_valid hgen (hpatNode2vecSampler_returns exp graph bias _ _)
            (fun a prevU ha => node2vecStep_all (hpatStep_valid hg ha haux (bias.toBias exp) prevU) bias _)
            job hstarts ex
      | pat =>
          dsimp only
          rw [Pat.build_eq hg]
          exact runWalksImpl_valid hgen (patNode2vecSampler_returns exp graph bias _ _)
            (fun a prevU ha => node2vecStep_all (patStep_valid hg ha hU (bias.toBias exp) kPatTrunkSizeMin prevU) bias _)
            job hstarts ex

end launched

/-! ### Verifying a launch -/

theorem testedWalk_congr {graph : TemporalGraph} {slots slots' : Nat → NodeStep} {len : Int} {maxWalkLen : Nat}
    (hpos : 0 < maxWalkLen) (h : ∀ k < maxWalkLen, slots' k = slots k) (ht : TestedWalk graph slots len maxWalkLen) :
    TestedWalk graph slots' len maxWalkLen := by
  have hlen := ht.len_mem
  have hround : ∀ k : Nat, 1 ≤ k → (k : Int) < len → slots' k = slots k ∧ slots' (k - 1) = slots (k - 1) :=
    fun k _ hlt => ⟨h k (by omega), h (k - 1) (by omega)⟩
  refine ⟨?_, hlen, fun k hk hlt => ?_, fun k hk hlt => ?_, fun k hk hlt => ?_⟩
  · rw [h 0 hpos]
    exact ht.sentinel
  · rw [(hround k hk hlt).1, (hround k hk hlt).2]
    exact ht.decreasing k hk hlt
  · rw [(hround k hk hlt).1, (hround k hk hlt).2]
    exact ht.stored k hk hlt
  · rw [h k hlt]
    exact ht.padded k hk hlt

theorem liveIn_congr {graph : TemporalGraph} {slots slots' : Nat → NodeStep} {len : Int} {maxWalkLen : Nat}
    (h : ∀ k < maxWalkLen, slots' k = slots k) (hlive : LiveIn graph slots len maxWalkLen) :
    LiveIn graph slots' len maxWalkLen := by
  intro k hk hlt
  rw [h k hk]
  exact hlive k hk hlt

section launch

variable {graph : TemporalGraph} {starts : List Int} {maxWalkLen : Nat} (hlen : 0 < maxWalkLen)
  (walks : (numWalks : Nat) → Execution R numWalks) (run : (job : WalkJob) → Execution R job.numWalks → WalkRun)

/-- The number of walks that the runner is told to make. -/
def handedOver (starts : List Int) : Nat := (toInt32 starts.length).toNat

theorem handedOver_le (starts : List Int) : handedOver starts ≤ starts.length := by
  have hfits := (toInt32_isInt32 (starts.length : Int)).2
  unfold handedOver
  rcases Nat.lt_or_ge starts.length (2 ^ 31) with hsmall | hlarge
  · rw [toInt32_natCast_eq_iff.mpr hsmall, Int.toNat_natCast]
  · omega

/-- The job that the runner gets. -/
def handedJob (starts : List Int) {maxWalkLen : Nat} (hlen : 0 < maxWalkLen) : WalkJob :=
  WalkJob.ofStarts (starts.take (handedOver starts)) maxWalkLen globalSeed hlen

theorem numWalks_handedJob : (handedJob starts hlen).numWalks = handedOver starts := by
  dsimp only [handedJob, WalkJob.ofStarts]
  rw [List.length_take]
  exact Nat.min_eq_left (handedOver_le starts)

theorem startsIn_handedJob {n : Nat} (hstarts : ∀ u ∈ starts, 0 ≤ u ∧ u < n) : (handedJob starts hlen).StartsIn n := by
  intro u hu
  dsimp only [handedJob, WalkJob.ofStarts] at hu
  exact hstarts u (List.mem_of_mem_take hu)

variable (hg : graph.WellFormed) (hstarts : ∀ u ∈ starts, 0 ≤ u ∧ u < graph.numVertices)
  (hvalid : ∀ job : WalkJob, job.StartsIn graph.numVertices → ∀ ex, ValidWalks graph job (run job ex))

include hstarts hvalid

theorem length_handed :
    (run (handedJob starts hlen) (walks _)).walksOut.length = handedOver starts * maxWalkLen ∧
      (run (handedJob starts hlen) (walks _)).walkLensOut.length = handedOver starts := by
  have hv := hvalid _ (startsIn_handedJob hlen hstarts) (walks _)
  have hcount : (handedJob starts hlen).numWalks = handedOver starts := numWalks_handedJob hlen
  exact ⟨hv.walksOut_length.trans (congrArg (· * maxWalkLen) hcount), hv.walkLensOut_length.trans hcount⟩

theorem slot_launch {i k : Nat} (hi : i < handedOver starts) (hk : k < maxWalkLen) :
    (launch starts maxWalkLen hlen run walks).slot maxWalkLen i k =
      (run (handedJob starts hlen) (walks _)).slot (handedJob starts hlen) i k := by
  obtain ⟨hsize, -⟩ := length_handed hlen walks run hstarts hvalid
  have hend : (i + 1) * maxWalkLen ≤ handedOver starts * maxWalkLen := Nat.mul_le_mul_right _ hi
  rw [Nat.succ_mul] at hend
  refine List.getD_append _ _ _ _ ?_
  show i * maxWalkLen + k < (run (handedJob starts hlen) (walks _)).walksOut.length
  rw [hsize]
  exact (show i * maxWalkLen + k < handedOver starts * maxWalkLen by omega)

theorem len_launch {i : Nat} (hi : i < handedOver starts) :
    (launch starts maxWalkLen hlen run walks).len i = (run (handedJob starts hlen) (walks _)).len i := by
  obtain ⟨-, hsize⟩ := length_handed hlen walks run hstarts hvalid
  refine List.getD_append _ _ _ _ ?_
  show i < (run (handedJob starts hlen) (walks _)).walkLensOut.length
  omega

/-- The first walk that is not handed over still has the slot that its buffer was initialised with. -/
theorem slot_launch_untouched :
    (launch starts maxWalkLen hlen run walks).slot maxWalkLen (handedOver starts) 0 = ⟨0, 0⟩ := by
  obtain ⟨hsize, -⟩ := length_handed hlen walks run hstarts hvalid
  have happend := List.getD_append_right (run (handedJob starts hlen) (walks _)).walksOut
    (List.replicate ((starts.length - (handedJob starts hlen).numWalks) * maxWalkLen) (⟨0, 0⟩ : NodeStep)) ⟨0, 0⟩
    (handedOver starts * maxWalkLen + 0) (hsize.trans_le (Nat.le_add_right _ _))
  refine happend.trans ?_
  rw [List.getD_eq_getElem?_getD, List.getElem?_replicate]
  split_ifs <;> rfl

include hg

/-- The verifier finds the first walk that is not handed over. -/
theorem verifyEvery_launch_narrowed (hnarrowed : handedOver starts < starts.length) :
    verifyEvery graph starts.length maxWalkLen (launch starts maxWalkLen hlen run walks) =
      .error ⟨handedOver starts, 0, "slot 0 timestamp is not the sentinel"⟩ := by
  have hstarts' := startsIn_handedJob hlen hstarts
  have hv := hvalid _ hstarts' (walks _)
  have hcount : (handedJob starts hlen).numWalks = handedOver starts := numWalks_handedJob hlen
  have hslot : ∀ i < handedOver starts, ∀ k < maxWalkLen,
      (launch starts maxWalkLen hlen run walks).slot maxWalkLen i k =
        ((run (handedJob starts hlen) (walks _)).buffers hv).slots i k :=
    fun i hi k hk => slot_launch hlen walks run hstarts hvalid hi hk
  have hlen' : ∀ i < handedOver starts, (((launch starts maxWalkLen hlen run walks).len i : Nat) : Int) =
      ((run (handedJob starts hlen) (walks _)).buffers hv).len i := by
    intro i hi
    rw [len_launch hlen walks run hstarts hvalid hi, WalkRun.len_buffers]
  have hround : ∀ i, 0 ≤ i → i < 0 + handedOver starts → TestedWalk graph
      ((launch starts maxWalkLen hlen run walks).slot maxWalkLen i)
      ((launch starts maxWalkLen hlen run walks).len i : Nat) maxWalkLen := by
    intro i _ hi
    rw [Nat.zero_add] at hi
    rw [hlen' i hi]
    exact testedWalk_congr hlen (hslot i hi) (documentedWalk_iff.mp (hv.documented (hi.trans_eq hcount.symm))).1
  apply Decides.loop_stops (I := fun _ _ => True) starts.length 0 (handedOver starts) ?_ hround hnarrowed ?_ trivial
  · intro i _ hi stats _
    rw [Nat.zero_add] at hi
    have hlive := hv.liveIn hg hstarts' i (hi.trans_eq hcount.symm)
    rw [← hlen' i hi] at hlive
    exact (verifyWalk_decides hg (liveIn_congr (hslot i hi) hlive) i stats).mono fun _ _ => trivial
  · intro stats _
    rw [Nat.zero_add]
    apply if_pos
    show ((launch starts maxWalkLen hlen run walks).slot maxWalkLen (handedOver starts) 0).t ≠ _
    rw [slot_launch_untouched hlen walks run hstarts hvalid]
    decide

theorem verifyEvery_launch_fits (hfits : starts.length < 2 ^ 31) :
    ∃ stats, verifyEvery graph starts.length maxWalkLen (launch starts maxWalkLen hlen run walks) = .ok stats ∧
      stats.walksChecked = starts.length ∧
      stats.edgesChecked + starts.length = (launch starts maxWalkLen hlen run walks).totalSteps ∧
      stats.deadAtStart = (launch starts maxWalkLen hlen run walks).deadAtStart := by
  set job := WalkJob.ofStarts starts maxWalkLen globalSeed hlen with hjob
  have hin : job.StartsIn graph.numVertices := hstarts
  have hv := hvalid job hin (walks job.numWalks)
  rw [launch_of_fits hlen walks hfits]
  obtain ⟨stats, hok, hwalks, hedges, hdead⟩ := hv.verified hg hin
  refine ⟨stats, ?_, hwalks.trans hv.numWalks, hedges, hdead⟩
  rw [← hok]
  unfold verifyEvery verifyWalks
  congr 1
  funext stats i
  rw [WalkRun.len_buffers]
  rfl

end launch

end Tea.Cli
