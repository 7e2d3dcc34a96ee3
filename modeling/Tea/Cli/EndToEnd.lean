import Tea.Cli.Program
import Tea.Walk.Input
/-!
# What the programs do with an input

From the file to the walks: with ids in range and with walks that `int32_t` counts, `tea_walk` leaves walks that start at
every vertex the file leads into and go back along edges of the file, strictly back in time (`teaWalkMain_walks`). The
verifier passes exactly these inputs, and whatever else it is run on it objects to one thing only
(`verifyMain_teaWalkMain`). The exit statuses say which it was (`status_iff`).
-/

namespace Tea.Cli

open Arith CString Csv Check

variable {R P ρ : Type}

/-! ### The walks of an input -/

section input

variable {graph : TemporalGraph} (hg : graph.WellFormed) {edges : List Edge} {isDirected : Bool}
  (hstores : StoresInput graph edges graph.numVertices isDirected)

include hg hstores

theorem activeVertices_eq (hin : EndpointsIn edges graph.numVertices) :
    activeVertices graph = (receivers edges isDirected).card := by
  have himage : receivers edges isDirected =
      ((Finset.range graph.numVertices).filter fun u => 0 < graph.degree u).image fun u : Nat => (u : Int) := by
    ext x
    rw [Finset.mem_image]
    constructor
    · intro hx
      obtain ⟨u, hu, rfl⟩ := exists_vertex hin hx
      exact ⟨u, Finset.mem_filter.mpr ⟨Finset.mem_range.mpr hu, (degree_pos_iff hg hstores hu).mpr hx⟩, rfl⟩
    · rintro ⟨u, hu, rfl⟩
      obtain ⟨hmem, hdeg⟩ := Finset.mem_filter.mp hu
      exact (degree_pos_iff hg hstores (Finset.mem_range.mp hmem)).mp hdeg
  rw [himage, Finset.card_image_of_injective _ Nat.cast_injective, activeVertices, List.countP_eq_length_filter]
  rfl

end input

/-- The number of walks that a command line asks for. -/
def inputWalks (edges : List Edge) (args : CliArgs R) : Nat :=
  (receivers edges args.isDirected).card * args.numWalksPerNode.toNat

theorem inputWalks_eq_zero_iff {edges : List Edge} {args : CliArgs R} : inputWalks edges args = 0 ↔ edges = [] := by
  have hpos := args.numWalksPerNode_pos
  unfold inputWalks
  rw [Nat.mul_eq_zero, Finset.card_eq_zero, or_iff_left (by omega), Finset.eq_empty_iff_forall_notMem]
  constructor
  · intro h
    refine List.eq_nil_iff_forall_not_mem.mpr fun e he => h e.v (mem_receivers.mpr ⟨e, he, .inl rfl⟩)
  · rintro rfl x hx
    obtain ⟨e, he, -⟩ := mem_receivers.mp hx
    cases he

/-- The buffers hold the walks of the input: so many from every vertex that an edge leads into, each against edges of the
input and strictly back in time, with dead slots behind it; the statistics count them. -/
structure WalksOfInput (edges : List Edge) (args : CliArgs R) (run : LaunchedRun) : Prop where
  numWalks : run.numWalks = inputWalks edges args
  start : ∀ i < inputWalks edges args, ∃ v ∈ receivers edges args.isDirected,
    run.slot args.maxWalkLen.toNat i 0 = ⟨v, kSentinelStartTimestamp⟩
  perVertex : ∀ v ∈ receivers edges args.isDirected, ((List.range (inputWalks edges args)).countP fun i =>
    run.slot args.maxWalkLen.toNat i 0 = ⟨v, kSentinelStartTimestamp⟩) = args.numWalksPerNode.toNat
  len_mem : ∀ i < inputWalks edges args, 1 ≤ run.len i ∧ run.len i ≤ args.maxWalkLen.toNat
  follows : ∀ i < inputWalks edges args, ∀ k, 1 ≤ k → k < run.len i → Follows edges args.isDirected
    (run.slot args.maxWalkLen.toNat i (k - 1)) (run.slot args.maxWalkLen.toNat i k)
  dead : ∀ i < inputWalks edges args, ∀ k, run.len i ≤ k → k < args.maxWalkLen.toNat →
    run.slot args.maxWalkLen.toNat i k = ⟨kWalkDeadSentinel, 0⟩
  totalSteps : run.totalSteps = ((List.range (inputWalks edges args)).map run.len).sum
  deadAtStart : run.deadAtStart = (List.range (inputWalks edges args)).countP fun i => run.len i = 1

/-- No id of the file is negative or one of the two largest `int32_t`. -/
def IdsInRange [Arith R] (world : World R ρ) (argv : List String) : Prop :=
  ∀ args edges, loadInput world argv = .ok (args, edges) → ∀ e ∈ edges, IdInRange e.u ∧ IdInRange e.v

section main

variable {world : World R ρ} {args : CliArgs R} {edges : List Edge}
  (hids : ∀ e ∈ edges, IdInRange e.u ∧ IdInRange e.v)

include hids

theorem endpointsIn_numVerticesOf : EndpointsIn edges (vertexCount edges (numVerticesOf edges)) := by
  obtain ⟨hends, -⟩ := (endpoints_iff edges).mpr hids
  have hnonneg : 0 ≤ numVerticesOf edges := by
    cases edges with
    | nil => decide
    | cons e es =>
        have := hends e List.mem_cons_self
        omega
  have hcount : vertexCount edges (numVerticesOf edges) = (numVerticesOf edges).toNat := if_neg (by omega)
  intro e he
  rw [hcount, Int.toNat_of_nonneg hnonneg]
  exact hends e he

variable (world args) in
theorem buildGraphInt32_eq : buildGraphInt32 world args edges = .ok (buildGraph world args edges) := by
  have hin := endpointsIn_numVerticesOf hids
  obtain ⟨-, hroom⟩ := (endpoints_iff edges).mpr hids
  have hcount : vertexCount edges (numVerticesOf edges) < 2 ^ 31 - 1 := by
    unfold vertexCount
    rw [← maxNodeId_eq]
    show (if numVerticesOf edges < 0 then (numVerticesOf edges).toNat else (numVerticesOf edges).toNat) < 2 ^ 31 - 1
    rw [ite_self]
    omega
  rw [buildGraphInt32, TemporalGraph.buildInt32_eq world.sort {} _ hin hcount]
  rfl

variable (world args) in
theorem buildGraph_walkable :
    let graph := buildGraph world args edges
    graph.WellFormed ∧ StoresInput graph edges graph.numVertices args.isDirected ∧ EndpointsIn edges graph.numVertices := by
  have hin := endpointsIn_numVerticesOf hids
  obtain ⟨hg, hn, hstores⟩ := build_walkable world.sort {} (world.schedule edges args.isDirected) hin
  exact ⟨hg, hstores, hn ▸ hin⟩

variable (world args) in
theorem length_starts_eq : (args.starts (buildGraph world args edges)).length = inputWalks edges args := by
  obtain ⟨hg, hstores, hin⟩ := buildGraph_walkable world args hids
  rw [length_starts, activeVertices_eq hg hstores hin]
  rfl

theorem mem_starts {u : Int} (hu : u ∈ args.starts (buildGraph world args edges)) :
    u ∈ receivers edges args.isDirected ∧ 0 ≤ u ∧ u < (buildGraph world args edges).numVertices := by
  obtain ⟨hg, hstores, -⟩ := buildGraph_walkable world args hids
  obtain ⟨v, hv, hdeg, rfl⟩ := mem_makeAllNodesStarts hu
  exact ⟨(degree_pos_iff hg hstores hv).mp hdeg, by omega, by omega⟩

theorem count_starts {v : Int} (hv : v ∈ receivers edges args.isDirected) :
    (args.starts (buildGraph world args edges)).count v = args.numWalksPerNode.toNat := by
  obtain ⟨hg, hstores, hin⟩ := buildGraph_walkable world args hids
  obtain ⟨u, hu, rfl⟩ := exists_vertex hin hv
  exact count_makeAllNodesStarts _ _ hu ((degree_pos_iff hg hstores hu).mpr hv)

variable [Arith R] {U : R → Prop} (hU : NonnegDraws U) (hgen : world.gen.toGenerator.Admissible U)

include hU hgen

/-- A run whose walks `int32_t` counts holds the walks of the input. -/
theorem launched_walks (hfits : inputWalks edges args < 2 ^ 31) :
    WalksOfInput edges args (launched world.gen world.exp (buildGraph world args edges) args
      (world.env (buildGraph world args edges))) := by
  have hlen := length_starts_eq world args hids
  have hmem := fun u (hu : u ∈ args.starts (buildGraph world args edges)) => mem_starts hids hu
  obtain ⟨hg, hstores, -⟩ := buildGraph_walkable world args hids
  set graph := buildGraph world args edges
  set job := WalkJob.ofStarts (args.starts graph) args.maxWalkLen.toNat globalSeed args.maxLen_pos with hjob
  have hin : job.StartsIn graph.numVertices := fun u hu => (hmem u hu).2
  have hv := runner_valid world.gen world.exp args (world.env graph) hg hU hgen job hin ((world.env graph).walks _)
  have hcount : job.numWalks = inputWalks edges args := hlen
  unfold launched
  rw [launch_of_fits args.maxLen_pos _ (hlen ▸ hfits)]
  have hstart : ∀ i < inputWalks edges args, job.start i ∈ receivers edges args.isDirected := by
    intro i hi
    rw [← hlen] at hi
    show (args.starts graph).getD i 0 ∈ receivers edges args.isDirected
    rw [List.getD_eq_getElem _ _ hi]
    exact (hmem _ (List.getElem_mem hi)).1
  rw [← hcount] at hstart
  refine ⟨congrArg Nat.cast hlen, ?_, ?_, ?_, ?_, ?_, ?_, ?_⟩ <;> rw [← hcount]
  · exact fun i hi => ⟨_, hstart i hi, hv.start i hi⟩
  · intro v hvmem
    rw [← count_starts hids hvmem, ← countP_range_getD]
    show (List.range (args.starts graph).length).countP _ = _
    apply List.countP_congr
    intro i hi
    have hslot := hv.start i (List.mem_range.mp hi)
    have hiff : (⟨job.start i, kSentinelStartTimestamp⟩ : NodeStep) = ⟨v, kSentinelStartTimestamp⟩ ↔ job.start i = v := by
      simp
    rw [decide_eq_true_eq, decide_eq_true_eq]
    refine Iff.trans ?_ hiff
    rw [← hslot]
    rfl
  · exact hv.len_mem
  · exact fun i hi k hk hlt => (hop_iff_follows hstores (hv.hop i hi k hk hlt).1).mp (hv.hop i hi k hk hlt)
  · exact hv.dead
  · exact hv.totalSteps
  · exact hv.deadAtStart

end main

/-! ### The two programs -/

/-- A file of two edges, one thread. -/
def twoEdges : World ℚ Pcg64 where
  gen := Pcg64.generator ℚ
  atof := fun _ => 0
  exp := fun _ => 1
  sort := StdSort.stable
  file := fun path => if path = "edges.csv" then some "u,i,ts\n0,1,5\n2,1,4\n".toList else none
  memory := fun _ => []
  schedule := Schedule.serial
  env := LaunchEnv.serial ℚ

/-- Three walks of at most eight slots from every vertex. -/
def threeWalks : CliArgs ℚ :=
  ⟨"edges.csv", .linear, .hpat, true, 3, 8, ofInt (-1), by decide, by decide, by decide, by decide⟩

def threeWalksLine : List String := ["tea_walk", "edges.csv", "linear", "tea_hpat", "1", "3", "8"]

theorem loadInput_twoEdges : loadInput twoEdges threeWalksLine = .ok (threeWalks, [⟨0, 1, 5⟩, ⟨2, 1, 4⟩]) := by
  rfl

theorem idsInRange_twoEdges : IdsInRange twoEdges threeWalksLine := by
  intro args edges hload
  rw [loadInput_twoEdges] at hload
  cases hload
  decide

section programs

variable [Arith R] {world : World R ρ} {argv : List String}

theorem bind_of_stop {α : Type} {stop : Stop} (hload : loadInput world argv = .error stop)
    (f : CliArgs R × List Edge → Except Stop α) : loadInput world argv >>= f = .error stop := by
  rw [hload]
  rfl

theorem teaWalkMain_of_load {args : CliArgs R} {edges : List Edge} (hload : loadInput world argv = .ok (args, edges))
    (hids : ∀ e ∈ edges, IdInRange e.u ∧ IdInRange e.v) : teaWalkMain world argv = .ok
      (teaWalk world.gen world.exp (buildGraph world args edges) args (world.env (buildGraph world args edges))) := by
  unfold teaWalkMain
  rw [hload]
  show buildGraphInt32 world args edges >>= _ = _
  rw [buildGraphInt32_eq world args hids]
  rfl

theorem verifyMain_of_load {args : CliArgs R} {edges : List Edge} (hload : loadInput world argv = .ok (args, edges))
    (hids : ∀ e ∈ edges, IdInRange e.u ∧ IdInRange e.v) : verifyMain world argv =
      (verifyEvery (buildGraph world args edges) (args.starts (buildGraph world args edges)).length args.maxWalkLen.toNat
        (launched world.gen world.exp (buildGraph world args edges) args
          (world.env (buildGraph world args edges)))).mapError Stop.died := by
  rw [← dispatch_eq]
  unfold verifyMain
  rw [hload]
  show buildGraphInt32 world args edges >>= _ = _
  rw [buildGraphInt32_eq world args hids]
  rfl

variable (hids : IdsInRange world argv) {U : R → Prop} (hU : NonnegDraws U) (hgen : world.gen.toGenerator.Admissible U)

include hids hU hgen

/-- **`tea_walk` leaves the walks of the input**, if `int32_t` counts them: for every command line and every file with ids
in range, whatever the threads, the sorting function and the arithmetic do. Without an edge it ends early, except for
node2vec. -/
theorem teaWalkMain_walks {args : CliArgs R} {edges : List Edge} (hload : loadInput world argv = .ok (args, edges))
    (hfits : inputWalks edges args < 2 ^ 31) : ∃ out, teaWalkMain world argv = .ok out ∧
      (out = none ↔ edges = [] ∧ args.picker ≠ .temporalNode2vec) ∧ ∀ run ∈ out, WalksOfInput edges args run := by
  have hwalks := launched_walks (hids args edges hload) hU hgen hfits
  have hlen := length_starts_eq world args (hids args edges hload)
  refine ⟨_, teaWalkMain_of_load hload (hids args edges hload), ?_, fun run hrun => ?_⟩
  · rw [teaWalk_eq, ite_eq_left_iff, hlen, inputWalks_eq_zero_iff, imp_iff_or_not]
    simp
  · rw [teaWalk_eq] at hrun
    split_ifs at hrun
    · cases hrun
    · cases hrun
      exact hwalks

omit hids hU hgen in
theorem teaWalkMain_walks_twoEdges :
    ∃ out, teaWalkMain twoEdges threeWalksLine = .ok out ∧
      (out = none ↔ ([⟨0, 1, 5⟩, ⟨2, 1, 4⟩] : List Edge) = [] ∧ threeWalks.picker ≠ .temporalNode2vec) ∧
      ∀ run ∈ out, WalksOfInput [⟨0, 1, 5⟩, ⟨2, 1, 4⟩] threeWalks run :=
  teaWalkMain_walks idsInRange_twoEdges (nonnegDraws_unit ℚ) Pcg64.admissible loadInput_twoEdges (by decide)

/-- The verifier passes the walks that `int32_t` counts, and counts what `tea_walk` counts. -/
theorem verifyMain_of_fits {args : CliArgs R} {edges : List Edge} (hload : loadInput world argv = .ok (args, edges))
    (hfits : inputWalks edges args < 2 ^ 31) : ∃ stats, verifyMain world argv = .ok stats ∧
      stats.walksChecked = inputWalks edges args ∧ ∀ run, teaWalkMain world argv = .ok (some run) →
        stats.edgesChecked + inputWalks edges args = run.totalSteps ∧ stats.deadAtStart = run.deadAtStart := by
  have hlen := length_starts_eq world args (hids args edges hload)
  obtain ⟨hg, -, -⟩ := buildGraph_walkable world args (hids args edges hload)
  rw [verifyMain_of_load hload (hids args edges hload), teaWalkMain_of_load hload (hids args edges hload), teaWalk_eq]
  have hstarts := fun u (hu : u ∈ args.starts (buildGraph world args edges)) =>
    (mem_starts (hids args edges hload) hu).2
  generalize buildGraph world args edges = graph at *
  have hvalid := fun job hin ex => runner_valid world.gen world.exp args (world.env graph) hg hU hgen job hin ex
  obtain ⟨stats, hok, hwalks, hedges, hdead⟩ := verifyEvery_launch_fits args.maxLen_pos (world.env graph).walks _ hg
    hstarts hvalid (hlen ▸ hfits)
  refine ⟨stats, ?_, hwalks.trans hlen, fun run hrun => ?_⟩
  · show (verifyEvery graph _ _ (launched world.gen world.exp graph args (world.env graph))).mapError Stop.died = _
    unfold launched
    rw [hok]
    rfl
  · split_ifs at hrun
    · cases hrun
    · cases hrun
      rw [← hlen]
      exact ⟨hedges, hdead⟩

/-- The verifier objects to the first walk that the narrowed count does not hand over. -/
theorem verifyMain_of_narrowed {args : CliArgs R} {edges : List Edge}
    (hload : loadInput world argv = .ok (args, edges)) (hlarge : 2 ^ 31 ≤ inputWalks edges args) :
    verifyMain world argv = .error (.died
      ⟨(toInt32 (inputWalks edges args)).toNat, 0, "slot 0 timestamp is not the sentinel"⟩) := by
  have hlen := length_starts_eq world args (hids args edges hload)
  obtain ⟨hg, -, -⟩ := buildGraph_walkable world args (hids args edges hload)
  rw [verifyMain_of_load hload (hids args edges hload)]
  have hstarts := fun u (hu : u ∈ args.starts (buildGraph world args edges)) =>
    (mem_starts (hids args edges hload) hu).2
  generalize buildGraph world args edges = graph at *
  have hnarrowed : handedOver (args.starts graph) < (args.starts graph).length := by
    have hfits := (toInt32_isInt32 ((args.starts graph).length : Int)).2
    unfold handedOver
    omega
  have hstop := verifyEvery_launch_narrowed args.maxLen_pos (world.env graph).walks _ hg hstarts
    (fun job hin ex => runner_valid world.gen world.exp args (world.env graph) hg hU hgen job hin ex) hnarrowed
  rw [handedOver, hlen] at hstop
  unfold launched
  rw [hlen, hstop]
  rfl

/-- **What `tea_verify_walks` passes.** It stops where `tea_walk` stops. On any other input it passes the walks, and
counts what `tea_walk` counts, if `int32_t` counts them; else it objects to the first walk that was not handed over. -/
theorem verifyMain_teaWalkMain :
    (∀ stop, loadInput world argv = .error stop →
      teaWalkMain world argv = .error stop ∧ verifyMain world argv = .error stop) ∧
    ∀ args edges, loadInput world argv = .ok (args, edges) →
      (inputWalks edges args < 2 ^ 31 → ∃ stats, verifyMain world argv = .ok stats ∧
        stats.walksChecked = inputWalks edges args ∧ ∀ run, teaWalkMain world argv = .ok (some run) →
          stats.edgesChecked + inputWalks edges args = run.totalSteps ∧ stats.deadAtStart = run.deadAtStart) ∧
      (2 ^ 31 ≤ inputWalks edges args → verifyMain world argv = .error (.died
        ⟨(toInt32 (inputWalks edges args)).toNat, 0, "slot 0 timestamp is not the sentinel"⟩)) :=
  ⟨fun _ hload => ⟨bind_of_stop hload _, bind_of_stop hload _⟩, fun _ _ hload =>
    ⟨verifyMain_of_fits hids hU hgen hload, verifyMain_of_narrowed hids hU hgen hload⟩⟩

omit hids hU hgen in
theorem verifyMain_twoEdges :
    ∃ stats, verifyMain twoEdges threeWalksLine = .ok stats ∧ stats.walksChecked = 3 ∧
      ∀ run, teaWalkMain twoEdges threeWalksLine = .ok (some run) →
        stats.edgesChecked + 3 = run.totalSteps ∧ stats.deadAtStart = run.deadAtStart := by
  have hwalks : inputWalks [⟨0, 1, 5⟩, ⟨2, 1, 4⟩] threeWalks = 3 := by decide
  obtain ⟨stats, hok, hchecked, hcounts⟩ := ((verifyMain_teaWalkMain idsInRange_twoEdges (nonnegDraws_unit ℚ)
    Pcg64.admissible).2 threeWalks _ loadInput_twoEdges).1 (by decide)
  rw [hwalks] at hchecked hcounts
  exact ⟨stats, hok, hchecked, hcounts⟩

omit hids hU hgen in
theorem parseCliArgs_refusal {atof : String → R} {r : Refusal} (h : parseCliArgs atof argv = .error r) :
    r = .exit 0 ∨ r = .exit 1 ∨ ∃ what, r = .thrown what := by
  have hthrown : ∀ {α : Type} {x : Except Refusal α} {f : α → Except Refusal (CliArgs R)}, (x >>= f = .error r) →
      (∀ r', x = .error r' → ∃ what, r' = .thrown what) → (∀ a, f a = .error r → ∃ what, r = .thrown what) →
      ∃ what, r = .thrown what := by
    intro α x f hbind hx hf
    cases x with
    | error r' =>
        cases hbind
        exact hx r rfl
    | ok a => exact hf a hbind
  unfold parseCliArgs at h
  dsimp only at h
  by_cases hargc : argv.length < 2
  · rw [if_pos hargc] at h
    exact .inr (.inl (Except.error.inj h).symm)
  by_cases hhelp : tryStr argv 1 "" = "--help" ∨ tryStr argv 1 "" = "-h"
  · rw [if_neg hargc, if_pos hhelp] at h
    exact .inl (Except.error.inj h).symm
  rw [if_neg hargc, if_neg hhelp] at h
  refine .inr (.inr (hthrown h (fun r' hpicker => ?_) fun picker hrest => hthrown hrest (fun r' hvariant => ?_)
    fun variant hchecks => ?_))
  · unfold parsePicker at hpicker
    split_ifs at hpicker
    exact ⟨_, (Except.error.inj hpicker).symm⟩
  · unfold parseVariant at hvariant
    split_ifs at hvariant
    exact ⟨_, (Except.error.inj hvariant).symm⟩
  · split_ifs at hchecks
    · exact ⟨_, (Except.error.inj hchecks).symm⟩
    · exact ⟨_, (Except.error.inj hchecks).symm⟩

omit hids hU hgen in
theorem loadInput_stop {stop : Stop} (hload : loadInput world argv = .error stop) :
    stop = .exit 0 ∨ stop = .exit 1 ∨ (∃ what, stop = .thrown what) ∨ stop = .undefined := by
  unfold loadInput at hload
  cases hparse : parseCliArgs world.atof argv with
  | error r =>
      rw [hparse] at hload
      obtain rfl : Stop.ofRefusal r = stop := Except.error.inj hload
      obtain rfl | rfl | ⟨what, rfl⟩ := parseCliArgs_refusal hparse
      · exact .inl rfl
      · exact .inr (.inl rfl)
      · exact .inr (.inr (.inl ⟨what, rfl⟩))
  | ok args =>
      rw [hparse] at hload
      change (readEdgesCsv world.memory args.filePath (world.file args.filePath)).mapError Stop.ofFault >>= _ = _ at hload
      cases hread : readEdgesCsv world.memory args.filePath (world.file args.filePath) with
      | ok edges =>
          rw [hread] at hload
          cases hload
      | error f =>
          rw [hread] at hload
          obtain rfl : Stop.ofFault f = stop := Except.error.inj hload
          cases f with
          | thrown what => exact .inr (.inr (.inl ⟨what, rfl⟩))
          | outOfBounds => exact .inr (.inr (.inr rfl))

/-- **The exit statuses.** `tea_walk` exits with 2 after an exception, where the verifier exits with 1; the verifier exits
with 2 exactly on the inputs whose walks `int32_t` does not count. -/
theorem status_iff :
    (teaWalkStatus world argv = some 2 ↔ ∃ what, loadInput world argv = .error (.thrown what)) ∧
    (verifyStatus world argv = some 1 ↔ teaWalkStatus world argv = some 1 ∨ teaWalkStatus world argv = some 2) ∧
    (verifyStatus world argv = some 2 ↔
      ∃ args edges, loadInput world argv = .ok (args, edges) ∧ 2 ^ 31 ≤ inputWalks edges args) := by
  unfold teaWalkStatus verifyStatus
  cases hload : loadInput world argv with
  | error stop =>
      have hwalk : teaWalkMain world argv = .error stop := bind_of_stop hload _
      have hverify : verifyMain world argv = .error stop := bind_of_stop hload _
      rw [hwalk, hverify]
      obtain rfl | rfl | ⟨what, rfl⟩ | rfl := loadInput_stop hload <;> simp [exitStatus]
  | ok input =>
      obtain ⟨args, edges⟩ := input
      rw [teaWalkMain_of_load hload (hids args edges hload)]
      rcases Nat.lt_or_ge (inputWalks edges args) (2 ^ 31) with hlt | hge
      · obtain ⟨stats, hverify, -⟩ := verifyMain_of_fits hids hU hgen hload hlt
        rw [hverify]
        simpa [exitStatus] using hlt
      · rw [verifyMain_of_narrowed hids hU hgen hload hge]
        simpa [exitStatus] using hge

omit hids hU hgen in
theorem status_iff_twoEdges :
    (teaWalkStatus twoEdges threeWalksLine = some 2 ↔ ∃ what, loadInput twoEdges threeWalksLine = .error (.thrown what)) ∧
    (verifyStatus twoEdges threeWalksLine = some 1 ↔
      teaWalkStatus twoEdges threeWalksLine = some 1 ∨ teaWalkStatus twoEdges threeWalksLine = some 2) ∧
    (verifyStatus twoEdges threeWalksLine = some 2 ↔ ∃ args edges,
      loadInput twoEdges threeWalksLine = .ok (args, edges) ∧ 2 ^ 31 ≤ inputWalks edges args) :=
  status_iff idsInRange_twoEdges (nonnegDraws_unit ℚ) Pcg64.admissible

end programs

end Tea.Cli
