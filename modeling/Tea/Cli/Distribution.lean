import Tea.Cli.EndToEnd
import Tea.Walk.WordLaw
/-!
# From the command line to the law of the walks

Every walk that `tea_walk` leaves is a function of the first outputs of its generator, the same for all walks from one
vertex. If the outputs are uniform and independent, then the walks are independent samples of the law that the command
line asks for, up to an error that grows with their length (`teaWalkMain_law`). The laws are those of the input, except for
the linear bias, which ranks the edges in the order in which the build stored them.
-/

namespace Tea.Cli

open Arith Laws Pcg64
open scoped ENNReal

/-! ### What a command line asks for -/

/-- The bias of `run_node2vec`. -/
noncomputable def node2vecBias (args : CliArgs ℝ) : Node2VecBias ℝ :=
  { p := 1, q := ofInt 2, timescaleBound := args.timescaleBound }

section asked

variable (exp : ℝ → ℝ) (graph : TemporalGraph) (edges : List Edge) (args : CliArgs ℝ) (D n : Nat)

/-- The law of the walks of at most `n` hops from `u`. -/
noncomputable def pickerLaw (u : Int) : PMF (List NodeStep) :=
  match args.picker with
  | .uniform => inputWalkLaw edges args.isDirected (uniformBias : Bias ℝ Unit) n (.ofStart u)
  | .linear => walkLaw graph linearBias n (.ofStart u)
  | .exponential => inputWalkLaw edges args.isDirected
      (({ timescaleBound := args.timescaleBound } : ExponentialBias ℝ).toBias exp) n (.ofStart u)
  | .temporalNode2vec => inputNode2vecWalkLaw edges args.isDirected exp (node2vecBias args) n (.ofStart u)

/-- How many outputs of its generator a walk of at most `n` hops looks at. -/
def walkOutputs : Nat :=
  match args.picker with
  | .temporalNode2vec => n * 4096
  | _ => n * 3

/-- How far the law of the walk is from the law asked for, if no vertex has more than `D` edges. -/
noncomputable def walkError : ℝ≥0∞ :=
  match args.picker with
  | .temporalNode2vec => node2vecWalkError (node2vecBias args) D n
  | _ => n * stepError D

end asked

/-! ### The step function of a command line -/

section runner

variable {ρ : Type} (gen : SeededGenerator ℝ ρ) {exp : ℝ → ℝ} (hexp : ∀ x, 0 ≤ exp x) (hzero : exp 0 = 1)
  {graph : TemporalGraph} (hg : graph.WellFormed) {edges : List Edge} (args : CliArgs ℝ)
  (hstores : StoresInput graph edges graph.numVertices args.isDirected) (hin : EndpointsIn edges graph.numVertices)
  (env : LaunchEnv ℝ graph) {D : Nat} (hdegree : ∀ v < graph.numVertices, graph.degree v ≤ D) (hsmall : D < 2 ^ 32)

omit hexp hzero hg hstores hin hdegree hsmall in
theorem nonNode2vecRunner_eq {P : Type} (bias : Bias ℝ P) : ∃ sample, BuiltSampler graph bias sample ∧
    ∀ job ex, nonNode2vecRunner gen graph args env bias job ex = runWalksImpl gen sample job ex := by
  unfold nonNode2vecRunner
  cases args.variant with
  | hpat => exact ⟨_, .hpat (Hpat.renews_fresh _) env.tables env.aux, fun _ _ => rfl⟩
  | pat => exact ⟨_, .pat {} kPatTrunkSizeMin env.tables, fun _ _ => rfl⟩

variable (exp) in
omit hexp hzero hg hstores hin hdegree hsmall in
theorem node2vecRunner_eq : ∃ sample, BuiltNode2vec graph exp (node2vecBias args)
      (NeighborSets.build {} graph args.isDirected env.neighbors) sample ∧
    ∀ job ex, node2vecRunner gen exp graph args env job ex = runWalksImpl gen sample job ex := by
  unfold node2vecRunner
  cases args.variant with
  | hpat => exact ⟨_, .hpat (Hpat.renews_fresh _) env.tables env.aux, fun _ _ => rfl⟩
  | pat => exact ⟨_, .pat {} kPatTrunkSizeMin env.tables, fun _ _ => rfl⟩

include hexp hzero hg hstores hin hdegree hsmall

/-- The runner of a command line loops over one step function, on which the walks have the law asked for. -/
theorem runner_onWords : ∃ (sample : Sampler ℝ) (step : StepFn ℝ), sample.Returns step ∧
    (∀ job ex, runner gen exp graph args env job ex = runWalksImpl gen sample job ex) ∧
    ∀ n u, (Walker.ofStart u).InGraph graph → WithinOnOutputs (hopsOf step n u kSentinelStartTimestamp (-1))
      (walkOutputs args n) (walkError args D n) (pickerLaw exp graph edges args n u) := by
  have hplain : ∀ {P : Type} {bias : Bias ℝ P} {sample : Sampler ℝ}, (∀ ts, bias.ExactOnSlices ts) →
      BuiltSampler graph bias sample → ∃ step, sample.Returns step ∧ ∀ n u, (Walker.ofStart u).InGraph graph →
        WithinOnOutputs (hopsOf step n u kSentinelStartTimestamp (-1)) (n * 3) (n * stepError D)
          (walkLaw graph bias n (.ofStart u)) := by
    intro P bias sample hexact h
    obtain ⟨step, hreturns⟩ := h.returns
    refine ⟨step, hreturns, fun n u hu => ?_⟩
    rw [← fst_hops hreturns _ _ _ _ {}]
    exact h.hops_onWords hg hexact hdegree hsmall n hu {}
  unfold runner walkOutputs walkError pickerLaw
  cases args.picker with
  | uniform =>
      obtain ⟨sample, h, hrun⟩ := nonNode2vecRunner_eq gen args env (uniformBias : Bias ℝ Unit)
      obtain ⟨step, hreturns, hlaw⟩ := hplain uniformBias_exact h
      refine ⟨sample, step, hreturns, hrun, fun n u hu => ?_⟩
      dsimp only
      rw [← walkLaw_eq_input hg hstores uniformBias_byTime n hu]
      exact hlaw n u hu
  | linear =>
      obtain ⟨sample, h, hrun⟩ := nonNode2vecRunner_eq gen args env (linearBias : Bias ℝ Unit)
      obtain ⟨step, hreturns, hlaw⟩ := hplain linearBias_exact h
      exact ⟨sample, step, hreturns, hrun, hlaw⟩
  | exponential =>
      set self : ExponentialBias ℝ := { timescaleBound := args.timescaleBound }
      obtain ⟨sample, h, hrun⟩ := nonNode2vecRunner_eq gen args env (self.toBias exp)
      obtain ⟨step, hreturns, hlaw⟩ := hplain (fun ts => ExponentialBias.toBias_exact hexp hzero self ts) h
      refine ⟨sample, step, hreturns, hrun, fun n u hu => ?_⟩
      dsimp only
      rw [← walkLaw_eq_input hg hstores (ExponentialBias.toBias_byTime exp self) n hu]
      exact hlaw n u hu
  | temporalNode2vec =>
      obtain ⟨sample, h, hrun⟩ := node2vecRunner_eq gen exp args env
      have hp : 0 < (node2vecBias args).p := zero_lt_one
      have hq : 0 < (node2vecBias args).q := by
        show (0 : ℝ) < ofInt 2
        rw [ofInt_exact]
        norm_num
      obtain ⟨plain, propose, -, -, hreturns⟩ := h.returns
      refine ⟨sample, _, hreturns, hrun, fun n u hu => ?_⟩
      rw [← fst_hops hreturns _ _ _ _ {}]
      exact h.hops_onWords hg hstores hin hexp hzero hp hq hdegree hsmall n hu {}

end runner

/-! ### The walks of a launch -/

/-- The live slots of walk `i`. -/
def LaunchedRun.walk (run : LaunchedRun) (maxWalkLen i : Nat) : List NodeStep :=
  (List.range (run.len i)).map (run.slot maxWalkLen i)

theorem map_getD_range {α : Type} (xs : List α) (d : α) : ((List.range xs.length).map fun k => xs.getD k d) = xs := by
  apply List.ext_getElem (by simp)
  intro k hk hk'
  rw [List.getElem_map, List.getElem_range, List.getD_eq_getElem _ _ hk']

theorem walk_launch {R ρ : Type} [Arith R] (gen : SeededGenerator R ρ) {sample : Sampler R} {step : StepFn R}
    (h : sample.Returns step) {starts : List Int} {maxWalkLen : Nat} (hlen : 0 < maxWalkLen)
    (walks : (numWalks : Nat) → Execution R numWalks) (hfits : starts.length < 2 ^ 31) {i : Nat} (hi : i < starts.length) :
    (launch starts maxWalkLen hlen (fun _ ex => runWalksImpl gen sample _ ex) walks).walk maxWalkLen i =
      walkOf gen step maxWalkLen globalSeed (starts.getD i 0) i := by
  set job := WalkJob.ofStarts starts maxWalkLen globalSeed hlen with hjob
  have hwalkLen := len_runWalksImpl gen h job (walks _) hi
  have hslots : ∀ k < (walkAt gen job step i).length,
      (runWalksImpl gen sample job (walks _)).slot job i k = (walkAt gen job step i).getD k ⟨0, 0⟩ :=
    fun k hk => slot_live gen h job (walks _) hi hk
  rw [launch_of_fits hlen walks hfits]
  show (List.range ((runWalksImpl gen sample job (walks _)).len i)).map
    ((runWalksImpl gen sample job (walks _)).slot job i) = walkAt gen job step i
  rw [hwalkLen, List.map_congr_left fun k hk => hslots k (List.mem_range.mp hk), map_getD_range]

section program

variable {world : World ℝ Pcg64} {argv : List String}

/-- **`tea_walk` samples the walks that the command line asks for.** Every walk is one function of its start vertex and
of the first outputs of its generator. For uniform and independent outputs the law of a walk is within `walkError` of the
law asked for, and all walks together are as close to independent samples, `walkError` for each. -/
theorem teaWalkMain_law (hgen : world.gen = Pcg64.generator ℝ) (hexp : ∀ x, 0 ≤ world.exp x) (hzero : world.exp 0 = 1)
    (hids : IdsInRange world argv) {args : CliArgs ℝ} {edges : List Edge} (hload : loadInput world argv = .ok (args, edges))
    (hfits : inputWalks edges args < 2 ^ 31) {D : Nat} (hD : ∀ v : Nat, (inbound edges args.isDirected v).length ≤ D)
    (hsmall : D < 2 ^ 32) :
    let n := args.maxWalkLen.toNat - 1
    let k := walkOutputs args n
    let starts := args.starts (buildGraph world args edges)
    let law := pickerLaw world.exp (buildGraph world args edges) edges args n
    ∃ walk : Int → List (BitVec 64) → List NodeStep,
      (∀ v ∈ starts, Within (walkError args D n) ((tapes rawWord k).map (walk v)) (law v)) ∧
      Within (starts.length * walkError args D n)
        ((independent (starts.map fun _ => tapes rawWord k)).map (List.zipWith walk starts))
        (independent (starts.map law)) ∧
      ∀ run, teaWalkMain world argv = .ok (some run) → ∀ i < starts.length, run.walk args.maxWalkLen.toNat i =
        ⟨starts.getD i 0, kSentinelStartTimestamp⟩ :: walk (starts.getD i 0) ((seedWith globalSeed i).outputs k) := by
  intro n k starts law
  have hstart : ∀ v ∈ starts, (Walker.ofStart v).InGraph (buildGraph world args edges) :=
    fun v hv => (mem_starts (hids args edges hload) hv).2
  have hlen : starts.length = inputWalks edges args := length_starts_eq world args (hids args edges hload)
  obtain ⟨hg, hstores, hin⟩ := buildGraph_walkable world args (hids args edges hload)
  have hdegree : ∀ v < (buildGraph world args edges).numVertices, (buildGraph world args edges).degree v ≤ D :=
    fun v hv => (hstores.degree_eq hv).trans_le (hD v)
  obtain ⟨sample, step, hreturns, hrunner, hwords⟩ := runner_onWords world.gen hexp hzero hg args hstores hin
    (world.env (buildGraph world args edges)) hdegree hsmall
  have hclose : ∀ v ∈ starts, Within (walkError args D n) ((tapes rawWord k).map fun tape =>
      ((hopsOf step n v kSentinelStartTimestamp (-1)).run (decoder ℝ).generator tape).1) (law v) :=
    fun v hv => (hwords n v (hstart v hv)).2
  refine ⟨fun v tape => ((hopsOf step n v kSentinelStartTimestamp (-1)).run (decoder ℝ).generator tape).1, hclose, ?_,
    fun run hout i hi => ?_⟩
  · rw [map_zipWith_independent]
    exact within_independent hclose
  · rw [teaWalkMain_of_load hload (hids args edges hload), teaWalk_eq] at hout
    split_ifs at hout
    · cases hout
    · obtain rfl := Option.some.inj (Except.ok.inj hout)
      have hrun : runner world.gen world.exp (buildGraph world args edges) args (world.env _) =
          fun _ ex => runWalksImpl world.gen sample _ ex := funext fun job => funext fun ex => hrunner job ex
      unfold launched
      rw [hrun, walk_launch world.gen hreturns args.maxLen_pos (world.env _).walks (hlen ▸ hfits) hi, walkOf, hgen]
      have hmem : starts.getD i 0 ∈ starts := by
        rw [List.getD_eq_getElem _ _ hi]
        exact List.getElem_mem hi
      exact congrArg (_ :: ·) ((hwords n _ (hstart _ hmem)).1 (seedWith globalSeed i))

end program

/-- A file of two edges and exponential weights. -/
noncomputable def realTwoEdges : World ℝ Pcg64 where
  gen := Pcg64.generator ℝ
  atof := fun _ => 0
  exp := Real.exp
  sort := StdSort.stable
  file := fun path => if path = "edges.csv" then some "u,i,ts\n0,1,5\n2,1,4\n".toList else none
  memory := fun _ => []
  schedule := Schedule.serial
  env := LaunchEnv.serial ℝ

/-- Five walks of at most six slots from every vertex. -/
noncomputable def fiveRealWalks : CliArgs ℝ :=
  ⟨"edges.csv", .exponential, .hpat, true, 5, 6, ofInt (-1), by decide, by decide, by decide, by decide⟩

theorem loadInput_realTwoEdges :
    loadInput realTwoEdges ["tea_walk", "edges.csv", "exponential", "tea_hpat", "1", "5", "6"] =
      .ok (fiveRealWalks, [⟨0, 1, 5⟩, ⟨2, 1, 4⟩]) := by
  rfl

theorem teaWalkMain_law_twoEdges :
    let graph := buildGraph realTwoEdges fiveRealWalks [⟨0, 1, 5⟩, ⟨2, 1, 4⟩]
    let starts := fiveRealWalks.starts graph
    let law := pickerLaw Real.exp graph [⟨0, 1, 5⟩, ⟨2, 1, 4⟩] fiveRealWalks 5
    ∃ walk : Int → List (BitVec 64) → List NodeStep,
      (∀ v ∈ starts, Within (walkError fiveRealWalks 2 5) ((tapes rawWord 15).map (walk v)) (law v)) ∧
      Within (starts.length * walkError fiveRealWalks 2 5)
        ((independent (starts.map fun _ => tapes rawWord 15)).map (List.zipWith walk starts))
        (independent (starts.map law)) ∧
      ∀ run, teaWalkMain realTwoEdges ["tea_walk", "edges.csv", "exponential", "tea_hpat", "1", "5", "6"] = .ok (some run) →
        ∀ i < starts.length, run.walk 6 i =
          ⟨starts.getD i 0, kSentinelStartTimestamp⟩ :: walk (starts.getD i 0) ((seedWith globalSeed i).outputs 15) := by
  have hids : IdsInRange realTwoEdges ["tea_walk", "edges.csv", "exponential", "tea_hpat", "1", "5", "6"] := by
    intro args edges hload
    rw [loadInput_realTwoEdges] at hload
    cases hload
    decide
  have hD : ∀ v : Nat, (inbound [⟨0, 1, 5⟩, ⟨2, 1, 4⟩] true v).length ≤ 2 := by
    intro v
    simpa [inbound] using List.length_filter_le (fun e : Edge => decide (e.v = v)) [⟨0, 1, 5⟩, ⟨2, 1, 4⟩]
  exact teaWalkMain_law rfl (fun x => (Real.exp_pos x).le) Real.exp_zero hids loadInput_realTwoEdges (by decide) hD
    (by decide)

end Tea.Cli
