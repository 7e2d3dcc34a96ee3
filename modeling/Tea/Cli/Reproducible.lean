import Tea.Cli.EndToEnd
import Tea.Csv.Errors
import Tea.Sampling.AuxCache
import Tea.Walk.Determinism
/-!
# What the output depends on

Two runs of a program on the same file may differ in the number of threads, in how their atomic operations interleave, in
the scratch buffers the threads start with, in what the memory holds behind the lines and in `TEA_DISABLE_AUX`. The walks,
their lengths and the statistics are the same if ties are settled and no line overruns (`programs_reproducible`). If no
vertex has entries of equal times and different targets, then the order of the lines of the file and the sorting function
do not matter either (`programs_permuted`).
-/

namespace Tea.Cli

open Arith CString Csv Check

variable {R P ρ : Type}

/-! ### Walks of two samplers -/

section agree

variable {graph : TemporalGraph} {U : R → Prop} {step step' : StepFn R}
  (hvalid : ∀ a prevU, InGraph graph a → (step a.v a.t prevU).All U (ValidStep graph a))
  (hsame : ∀ a prevU, InGraph graph a → step a.v a.t prevU = step' a.v a.t prevU)

include hvalid hsame

theorem run_hopsOf_congr {g : Generator R ρ} (hg : g.Admissible U) (n : Nat) {a : NodeStep} (ha : InGraph graph a)
    (prevU : Int) (s : ρ) : (hopsOf step n a.v a.t prevU).run g s = (hopsOf step' n a.v a.t prevU).run g s := by
  induction n generalizing a prevU s with
  | zero => rfl
  | succ n ih =>
      have hstep := (hvalid a prevU ha).run hg s
      rw [hopsOf, hopsOf, Draw.run_bind, Draw.run_bind, ← hsame a prevU ha]
      split_ifs with hdead
      · rfl
      · have hnext : InGraph graph ⟨_, _⟩ := (hstep hdead).2
        rw [Draw.run_bind, Draw.run_bind, ih hnext a.v]

theorem runWalksImpl_congr {gen : SeededGenerator R ρ} (hgen : gen.toGenerator.Admissible U) {sample sample' : Sampler R}
    (h : sample.Returns step) (h' : sample'.Returns step') (job : WalkJob) (hstarts : job.StartsIn graph.numVertices)
    (ex ex' : Execution R job.numWalks) : runWalksImpl gen sample job ex = runWalksImpl gen sample' job ex' := by
  have hwalk : ∀ i ∈ List.range job.numWalks, walkAt gen job step i = walkAt gen job step' i := by
    intro i hi
    have hstart : InGraph graph ⟨job.start i, kSentinelStartTimestamp⟩ := hstarts.start (List.mem_range.mp hi)
    unfold walkAt walkOf
    rw [run_hopsOf_congr hvalid hsame hgen _ hstart]
  have hslots : allSlots gen job step = allSlots gen job step' :=
    List.map_congr_left fun i hi => congrArg (paddedSlots job.maxWalkLen) (hwalk i hi)
  have hlens : ((List.range job.numWalks).map fun i => (walkAt gen job step i).length) =
      (List.range job.numWalks).map fun i => (walkAt gen job step' i).length :=
    List.map_congr_left fun i hi => congrArg List.length (hwalk i hi)
  have hdead : ((List.range job.numWalks).countP fun i => (walkAt gen job step i).length ≤ 1) =
      (List.range job.numWalks).countP fun i => (walkAt gen job step' i).length ≤ 1 :=
    List.countP_congr fun i hi => by rw [hwalk i hi]
  rw [runWalksImpl_eq gen h, runWalksImpl_eq gen h', hslots, hlens, hdead]

end agree

theorem hpatStep_eq_of_serves [Arith R] {graph : TemporalGraph} (hg : graph.WellFormed) {aux aux' : AuxIndex}
    (haux : ServesCovers graph aux) (haux' : ServesCovers graph aux') (bias : Bias R P) {a : NodeStep}
    (ha : InGraph graph a) (prevU : Int) : hpatStep graph (Hpat.tables graph bias aux) bias a.v a.t prevU =
      hpatStep graph (Hpat.tables graph bias aux') bias a.v a.t prevU := by
  have h := hpatSampler_returns graph (Hpat.tables graph bias aux) bias a.v a.t prevU {}
  have h' := hpatSampler_returns graph (Hpat.tables graph bias aux') bias a.v a.t prevU {}
  rw [← h, ← h']
  unfold hpatSampler sampleHpat
  rw [chooseHpat_eq_of_serves hg haux haux' bias ha.toNat_lt]

/-! ### Programs on one graph -/

section graph

variable [Arith R] (gen : SeededGenerator R ρ) (exp : R → R) {graph : TemporalGraph} (hg : graph.WellFormed)
  (args : CliArgs R) {U : R → Prop} (hgen : gen.toGenerator.Admissible U)

include hg hgen

theorem runner_env (env env' : LaunchEnv R graph) (job : WalkJob) (hstarts : job.StartsIn graph.numVertices)
    (ex ex' : Execution R job.numWalks) :
    runner gen exp graph args env job ex = runner gen exp graph args env' job ex' := by
  have hnon : ∀ {P : Type} (bias : Bias R P),
      nonNode2vecRunner gen graph args env bias job ex = nonNode2vecRunner gen graph args env' bias job ex' := by
    intro P bias
    unfold nonNode2vecRunner
    cases args.variant with
    | hpat =>
        obtain ⟨aux, haux, htables⟩ := Hpat.build_renewed hg bias (Hpat.renews_fresh _) env.tables env.aux
        obtain ⟨aux', haux', htables'⟩ := Hpat.build_renewed hg bias (Hpat.renews_fresh _) env'.tables env'.aux
        dsimp only
        rw [htables, htables']
        exact runWalksImpl_congr (fun a prevU ha => hpatStep_valid hg ha haux bias prevU)
          (fun a prevU ha => hpatStep_eq_of_serves hg haux haux' bias ha prevU) hgen (hpatSampler_returns graph _ bias)
          (hpatSampler_returns graph _ bias) job hstarts ex ex'
    | pat =>
        dsimp only
        rw [Pat.build_eq hg, Pat.build_eq hg]
        exact runWalksImpl_execution gen (patSampler_returns graph _ bias) job ex ex'
  unfold runner
  cases args.picker with
  | uniform => exact hnon _
  | linear => exact hnon _
  | exponential => exact hnon _
  | temporalNode2vec =>
      unfold node2vecRunner
      dsimp only
      rw [NeighborSets.build_eq hg, NeighborSets.build_eq hg]
      set bias : Node2VecBias R := { p := 1, q := ofInt 2, timescaleBound := args.timescaleBound }
      cases args.variant with
      | hpat =>
          obtain ⟨aux, haux, htables⟩ :=
            Hpat.build_renewed hg (bias.toBias exp) (Hpat.renews_fresh _) env.tables env.aux
          obtain ⟨aux', haux', htables'⟩ :=
            Hpat.build_renewed hg (bias.toBias exp) (Hpat.renews_fresh _) env'.tables env'.aux
          dsimp only
          rw [htables, htables']
          refine runWalksImpl_congr
            (fun a prevU ha => node2vecStep_all (hpatStep_valid hg ha haux (bias.toBias exp) prevU) bias _)
            (fun a prevU ha => ?_) hgen (hpatNode2vecSampler_returns exp graph bias _ _)
            (hpatNode2vecSampler_returns exp graph bias _ _) job hstarts ex ex'
          unfold node2vecStep
          rw [hpatStep_eq_of_serves hg haux haux' (bias.toBias exp) ha prevU]
      | pat =>
          dsimp only
          rw [Pat.build_eq hg, Pat.build_eq hg]
          exact runWalksImpl_execution gen (patNode2vecSampler_returns exp graph bias _ _) job ex ex'

theorem launched_env (env env' : LaunchEnv R graph) (hstarts : ∀ u ∈ args.starts graph, 0 ≤ u ∧ u < graph.numVertices) :
    launched gen exp graph args env = launched gen exp graph args env' := by
  have hrun : ∀ job : WalkJob, job.StartsIn graph.numVertices →
      runner gen exp graph args env job (env.walks job.numWalks) =
        runner gen exp graph args env' job (env'.walks job.numWalks) :=
    fun job hjob => runner_env gen exp hg args hgen env env' job hjob _ _
  have hjob := startsIn_handedJob args.maxLen_pos hstarts
  have h := hrun _ hjob
  unfold launched launch
  unfold handedJob handedOver at h
  dsimp only
  rw [h]

end graph

/-! ### Programs on one file -/

/-- The worlds have the same generator and the same library functions. -/
structure SameLibrary (world world' : World R ρ) : Prop where
  gen : world'.gen = world.gen
  atof : world'.atof = world.atof
  exp : world'.exp = world.exp

/-- No vertex has entries of equal times and different targets. -/
def TieFree (edges : List Edge) (isDirected : Bool) : Prop :=
  ∀ c ∈ edges.flatMap (captures isDirected), ∀ c' ∈ edges.flatMap (captures isDirected),
    c.vertex = c'.vertex → c.ts = c'.ts → c.target = c'.target

section file

variable {world world' : World R ρ} {args : CliArgs R} {edges edges' : List Edge}

theorem maxId_perm (hperm : edges'.Perm edges) : maxId edges' = maxId edges := by
  unfold maxId
  apply hperm.foldl_eq'
  intros
  omega

theorem numVerticesOf_perm (hperm : edges'.Perm edges) : numVerticesOf edges' = numVerticesOf edges := by
  rw [numVerticesOf, numVerticesOf, maxNodeId_eq, maxNodeId_eq, maxId_perm hperm]

theorem adjacency_eq_of_tieFree {isDirected : Bool} (hperm : edges'.Perm edges) (hties : TieFree edges isDirected)
    (S S' : StdSort) (n : Nat) (σ : Schedule edges isDirected) (σ' : Schedule edges' isDirected) :
    adjacency S' n σ'.captured = adjacency S n σ.captured := by
  have hcaptured : σ.captured.Perm σ'.captured :=
    σ.captured_perm.trans ((hperm.flatMap_right _).symm.trans σ'.captured_perm.symm)
  refine List.map_congr_left fun v _ => (S.sort_eq_of_perm S' Prod.fst ?_ ?_).symm
  · exact (hcaptured.filter _).map _
  · intro a ha b hb hab
    obtain ⟨c, hc, hcv, rfl⟩ := mem_arrivals.mp ha
    obtain ⟨c', hc', hcv', rfl⟩ := mem_arrivals.mp hb
    have htarget := hties c (σ.captured_perm.mem_iff.mp hc) c' (σ.captured_perm.mem_iff.mp hc') (hcv.trans hcv'.symm) hab
    exact Prod.ext hab htarget

/-- The graphs of two worlds, from lists of edges of which all schedules give the same adjacency lists. -/
theorem buildGraph_eq (hids : ∀ e ∈ edges, IdInRange e.u ∧ IdInRange e.v) (hperm : edges'.Perm edges)
    (hadjacency : ∀ n, adjacency world'.sort n (world'.schedule edges' args.isDirected).captured =
      adjacency world.sort n (world.schedule edges args.isDirected).captured) :
    buildGraph world' args edges' = buildGraph world args edges := by
  have hids' : ∀ e ∈ edges', IdInRange e.u ∧ IdInRange e.v := fun e he => hids e (hperm.mem_iff.mp he)
  have hin := endpointsIn_numVerticesOf hids
  have hin' := endpointsIn_numVerticesOf hids'
  have hcount : vertexCount edges' (numVerticesOf edges') = vertexCount edges (numVerticesOf edges) := by
    unfold vertexCount
    rw [numVerticesOf_perm hperm, maxId_perm hperm]
  unfold buildGraph
  rw [TemporalGraph.build_eq_ofAdj _ _ _ _ hin, TemporalGraph.build_eq_ofAdj _ _ _ _ hin', hadjacency, hcount]

variable [Arith R] {argv : List String}

variable (world argv) in
/-- No line that the reader handles has a fraction that runs to its end. -/
def LinesClosed : Prop :=
  ∀ args content, parseCliArgs world.atof argv = .ok args → world.file args.filePath = some content →
    ∀ d ∈ handledLines world.memory content, ¬ Overruns d.2

theorem loadInput_eq (hlib : SameLibrary world world') (hfile : world'.file = world.file)
    (hclosed : LinesClosed world argv) : loadInput world' argv = loadInput world argv := by
  unfold loadInput
  rw [hlib.atof, hfile]
  cases hparse : parseCliArgs world.atof argv with
  | error r => rfl
  | ok args =>
      have hread : readEdgesCsv world'.memory args.filePath (world.file args.filePath) =
          readEdgesCsv world.memory args.filePath (world.file args.filePath) := by
        cases hcontent : world.file args.filePath with
        | none => rfl
        | some content => exact readEdgesCsv_memory _ _ (hclosed args content hparse hcontent)
      show (readEdgesCsv world'.memory _ _).mapError Stop.ofFault >>= _ =
        (readEdgesCsv world.memory _ _).mapError Stop.ofFault >>= _
      rw [hread]

variable (hids : ∀ e ∈ edges, IdInRange e.u ∧ IdInRange e.v) {U : R → Prop}
  (hgen : world.gen.toGenerator.Admissible U) (hlib : SameLibrary world world')

include hids hgen hlib

theorem programs_eq_of_graph (hload : loadInput world argv = .ok (args, edges))
    (hload' : loadInput world' argv = .ok (args, edges')) (hperm : edges'.Perm edges)
    (hgraph : buildGraph world' args edges' = buildGraph world args edges) :
    teaWalkMain world' argv = teaWalkMain world argv ∧ verifyMain world' argv = verifyMain world argv := by
  obtain ⟨hg, -, -⟩ := buildGraph_walkable world args hids
  have hstarts := fun u (hu : u ∈ args.starts (buildGraph world args edges)) => (mem_starts hids hu).2
  have hids' : ∀ e ∈ edges', IdInRange e.u ∧ IdInRange e.v := fun e he => hids e (hperm.mem_iff.mp he)
  rw [teaWalkMain_of_load hload hids, teaWalkMain_of_load hload' hids', verifyMain_of_load hload hids,
    verifyMain_of_load hload' hids', hgraph, hlib.gen, hlib.exp, teaWalk_eq, teaWalk_eq,
    launched_env world.gen world.exp hg args hgen (world'.env _) (world.env _) hstarts]
  exact ⟨rfl, rfl⟩

end file

section reproducible

variable [Arith R] {world world' : World R ρ} {argv : List String} (hids : IdsInRange world argv) {U : R → Prop}
  (hgen : world.gen.toGenerator.Admissible U) (hlib : SameLibrary world world')

include hids hgen hlib

/-- **The output of the programs is reproducible** if the ties of the file are settled and no line overruns: it depends
neither on the number of threads, nor on how they interleave in any of the loops, nor on the memory, nor on the auxiliary
index. -/
theorem programs_reproducible (hsort : world'.sort = world.sort) (hfile : world'.file = world.file)
    (hclosed : LinesClosed world argv)
    (hsettled : ∀ args edges, loadInput world argv = .ok (args, edges) → TiesSettled edges args.isDirected) :
    teaWalkMain world' argv = teaWalkMain world argv ∧ verifyMain world' argv = verifyMain world argv := by
  have hsame : loadInput world' argv = loadInput world argv := loadInput_eq hlib hfile hclosed
  cases hload : loadInput world argv with
  | error stop =>
      have hload' := hsame.trans hload
      exact ⟨(bind_of_stop hload' _).trans (bind_of_stop hload _).symm,
        (bind_of_stop hload' _).trans (bind_of_stop hload _).symm⟩
  | ok input =>
      obtain ⟨args, edges⟩ := input
      refine programs_eq_of_graph (hids args edges hload) hgen hlib hload (hsame.trans hload)
        (List.Perm.refl _) (buildGraph_eq (hids args edges hload) (List.Perm.refl _) fun n => ?_)
      rw [hsort]
      exact adjacency_eq_of_settled (hsettled args edges hload) _ n _ _

/-- **Without ties the order of the lines does not matter**, nor does the sorting function. -/
theorem programs_permuted {args : CliArgs R} {edges edges' : List Edge} (hload : loadInput world argv = .ok (args, edges))
    (hload' : loadInput world' argv = .ok (args, edges')) (hperm : edges'.Perm edges)
    (hties : TieFree edges args.isDirected) :
    teaWalkMain world' argv = teaWalkMain world argv ∧ verifyMain world' argv = verifyMain world argv :=
  programs_eq_of_graph (hids args edges hload) hgen hlib hload hload' hperm
    (buildGraph_eq (hids args edges hload) hperm fun n => adjacency_eq_of_tieFree hperm hties _ _ n _ _)

end reproducible

/-- The two edges in the other order, and the auxiliary index disabled. -/
def twoEdgesSwapped : World ℚ Pcg64 where
  gen := Pcg64.generator ℚ
  atof := fun _ => 0
  exp := fun _ => 1
  sort := StdSort.stable
  file := fun path => if path = "edges.csv" then some "u,i,ts\n2,1,4\n0,1,5\n".toList else none
  memory := fun _ => []
  schedule := fun edges isDirected => Schedule.sequential edges isDirected 4 (by decide)
  env := fun graph => { LaunchEnv.serial ℚ graph with teaDisableAux := some "1" }

theorem loadInput_twoEdgesSwapped :
    loadInput twoEdgesSwapped threeWalksLine = .ok (threeWalks, [⟨2, 1, 4⟩, ⟨0, 1, 5⟩]) := by
  rfl

theorem tieFree_twoEdges : TieFree [⟨0, 1, 5⟩, ⟨2, 1, 4⟩] threeWalks.isDirected := by
  unfold TieFree
  decide

theorem sameLibrary_swapped : SameLibrary twoEdges twoEdgesSwapped := ⟨rfl, rfl, rfl⟩

theorem programs_permuted_twoEdges :
    teaWalkMain twoEdgesSwapped threeWalksLine = teaWalkMain twoEdges threeWalksLine ∧
      verifyMain twoEdgesSwapped threeWalksLine = verifyMain twoEdges threeWalksLine := by
  have hadmissible : twoEdges.gen.toGenerator.Admissible _ := Pcg64.admissible (K := ℚ)
  have hperm : ([⟨2, 1, 4⟩, ⟨0, 1, 5⟩] : List Edge).Perm [⟨0, 1, 5⟩, ⟨2, 1, 4⟩] := List.Perm.swap _ _ _
  exact programs_permuted idsInRange_twoEdges hadmissible sameLibrary_swapped loadInput_twoEdges
    loadInput_twoEdgesSwapped hperm tieFree_twoEdges

/-- The same file, scattered by four threads, other memory, and the auxiliary index disabled. -/
def twoEdgesThreads : World ℚ Pcg64 :=
  { twoEdges with
    memory := fun _ => "5,6".toList
    schedule := fun edges isDirected => Schedule.sequential edges isDirected 4 (by decide)
    env := fun graph => { LaunchEnv.serial ℚ graph with teaDisableAux := some "1" } }

theorem tiesSettled_twoEdges : TiesSettled [⟨0, 1, 5⟩, ⟨2, 1, 4⟩] threeWalks.isDirected := by
  intro v
  left
  intro c hc c' hc' hv hv' hts
  exact tieFree_twoEdges c hc c' hc' (hv.trans hv'.symm) hts

theorem linesClosed_twoEdges : LinesClosed twoEdges threeWalksLine := by
  intro args content hparse hcontent d hd hover
  obtain rfl : threeWalks = args := Except.ok.inj hparse
  obtain rfl : "u,i,ts\n0,1,5\n2,1,4\n".toList = content := Option.some.inj hcontent
  have hlines : handledLines twoEdges.memory "u,i,ts\n0,1,5\n2,1,4\n".toList =
      [(2, "0,1,5".toList), (3, "2,1,4".toList)] := by decide
  rw [hlines, List.mem_pair] at hd
  have hfault : (parseLine d.1 d.2).result = .error .outOfBounds := parseLine_of_overruns d.1 hover
  rcases hd with rfl | rfl
  · exact absurd hfault (by decide)
  · exact absurd hfault (by decide)

theorem programs_reproducible_twoEdges :
    teaWalkMain twoEdgesThreads threeWalksLine = teaWalkMain twoEdges threeWalksLine ∧
      verifyMain twoEdgesThreads threeWalksLine = verifyMain twoEdges threeWalksLine := by
  have hadmissible : twoEdges.gen.toGenerator.Admissible _ := Pcg64.admissible (K := ℚ)
  have hlib : SameLibrary twoEdges twoEdgesThreads := ⟨rfl, rfl, rfl⟩
  have hsettled : ∀ args edges, loadInput twoEdges threeWalksLine = .ok (args, edges) →
      TiesSettled edges args.isDirected := by
    intro args edges hload
    rw [loadInput_twoEdges] at hload
    cases hload
    exact tiesSettled_twoEdges
  exact programs_reproducible idsInRange_twoEdges hadmissible hlib rfl rfl linesClosed_twoEdges hsettled

end Tea.Cli
