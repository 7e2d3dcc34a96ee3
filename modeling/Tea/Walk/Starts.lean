import Tea.Walk.Live
/-!
# The start of a walk

A walk starts at the time `kSentinelStartTimestamp`, which every stored entry is meant to be before, so that all entries of
the start vertex are candidates and no walk from `makeAllNodesStarts` dies at its start. The sentinel is the largest
`int64_t`, and an entry may have that very time: all entries are candidates exactly if no input edge has it
(`sentinel_admits_iff`).
-/

namespace Tea

open Arith

variable {R ρ : Type}

/-- `make_all_nodes_starts`; the programs have checked that the count is positive. -/
def makeAllNodesStarts (graph : TemporalGraph) (walksPerNode : Nat) : List Int :=
  (List.range graph.numVertices).flatMap fun u =>
    if 0 < graph.degree u then List.replicate walksPerNode (u : Int) else []

theorem mem_makeAllNodesStarts {graph : TemporalGraph} {walksPerNode : Nat} {x : Int}
    (h : x ∈ makeAllNodesStarts graph walksPerNode) :
    ∃ u < graph.numVertices, 0 < graph.degree u ∧ x = (u : Int) := by
  obtain ⟨u, hu, hx⟩ := List.mem_flatMap.mp h
  refine ⟨u, List.mem_range.mp hu, ?_⟩
  split_ifs at hx with hD
  · exact ⟨hD, List.eq_of_mem_replicate hx⟩
  · cases hx

/-! ### The sentinel against the stored times -/

section sentinel

variable {graph : TemporalGraph} {edges : List Edge} {n : Nat} {isDirected : Bool}

theorem StoresInput.candidates_eq_degree_iff (hs : StoresInput graph edges n isDirected) {u : Nat} (hu : u < n)
    (tPrev : Int) :
    graph.candidateSetLen u tPrev = graph.degree u ↔ ∀ e ∈ inbound edges isDirected u, e.1 < tPrev := by
  have hlen : (inbound edges isDirected u).length = graph.degree u := by
    obtain ⟨htargets, htimes⟩ := hs.in_step u hu
    rw [← (hs.entries u hu).length_eq, TemporalGraph.entriesOf, List.length_zip, htargets, htimes, Nat.min_self]
  rw [hs.candidates u hu, ← hlen, List.countP_eq_length]
  simp

theorem inbound_times_iff (hin : EndpointsIn edges n) (Q : Int → Prop) :
    (∀ u < n, ∀ e ∈ inbound edges isDirected u, Q e.1) ↔ ∀ e ∈ edges, Q e.t := by
  constructor
  · intro h e he
    obtain ⟨-, hv⟩ := hin e he
    have hvertex : e.v = (e.v.toNat : Int) := (Int.toNat_of_nonneg hv.1).symm
    refine h e.v.toNat (by omega) (e.t, e.u) (List.mem_append_left _ ?_)
    exact List.mem_map.mpr ⟨e, List.mem_filter.mpr ⟨he, by simpa using hvertex⟩, rfl⟩
  · intro h u _ e he
    rcases List.mem_append.mp he with he | he
    · obtain ⟨edge, hedge, rfl⟩ := List.mem_map.mp he
      exact h edge (List.mem_filter.mp hedge).1
    · split_ifs at he
      · cases he
      · obtain ⟨edge, hedge, rfl⟩ := List.mem_map.mp he
        exact h edge (List.mem_filter.mp hedge).1

theorem lt_sentinel_iff {t : Int} (h : IsInt64 t) : t < kSentinelStartTimestamp ↔ t ≠ kSentinelStartTimestamp := by
  have hle : t ≤ kSentinelStartTimestamp := by
    have := h.2
    unfold kSentinelStartTimestamp
    omega
  exact hle.lt_iff_ne

end sentinel

/-! ### Walks from the start list -/

/-- A run of one of the four runners, on tables of the graph, with positive weights. -/
inductive PositiveRun [Arith R] (graph : TemporalGraph) (gen : SeededGenerator R ρ) (job : WalkJob)
    (ex : Execution R job.numWalks) : WalkRun → Prop
  | pat {P : Type} {bias : Bias R P} (hpos : ∀ u < graph.numVertices, PositiveAt graph bias u) (pat : Pat R P)
      (minTrunkSize : Int) (τ : ForSchedule graph.numVertices) :
      PositiveRun graph gen job ex (runWalksPat gen graph (pat.build graph bias minTrunkSize τ) bias job ex)
  | hpat {P : Type} {bias : Bias R P} (hpos : ∀ u < graph.numVertices, PositiveAt graph bias u) {hpat : Hpat R P}
      {auxBudgetBytes : Nat} (hrenews : hpat.Renews auxBudgetBytes) (τ τ' : ForSchedule graph.numVertices) :
      PositiveRun graph gen job ex (runWalksHpat gen graph (hpat.build graph bias auxBudgetBytes τ τ') bias job ex)
  | patNode2vec {exp : R → R} {bias : Node2VecBias R}
      (hpos : ∀ u < graph.numVertices, PositiveAt graph (bias.toBias exp) u) (neighbors : NeighborSets)
      (pat : Pat R (ExpParams R)) (minTrunkSize : Int) (τ : ForSchedule graph.numVertices) :
      PositiveRun graph gen job ex (runWalksPatNode2vec gen exp graph (pat.build graph (bias.toBias exp) minTrunkSize τ)
        bias neighbors job ex)
  | hpatNode2vec {exp : R → R} {bias : Node2VecBias R}
      (hpos : ∀ u < graph.numVertices, PositiveAt graph (bias.toBias exp) u) (neighbors : NeighborSets)
      {hpat : Hpat R (ExpParams R)} {auxBudgetBytes : Nat} (hrenews : hpat.Renews auxBudgetBytes)
      (τ τ' : ForSchedule graph.numVertices) :
      PositiveRun graph gen job ex (runWalksHpatNode2vec gen exp graph
        (hpat.build graph (bias.toBias exp) auxBudgetBytes τ τ') bias neighbors job ex)

section runs

variable [Arith R] [PosArith R] {graph : TemporalGraph} (hg : graph.WellFormed) {U : R → Prop} (hU : NonnegDraws U)
  {gen : SeededGenerator R ρ} {job : WalkJob} {ex : Execution R job.numWalks} {run : WalkRun}

include hg hU in
/-- Every such run is the engine with a sampler that is dead exactly without candidates. -/
theorem PositiveRun.sampler (h : PositiveRun graph gen job ex run) :
    ∃ sample step, LiveSampler graph U sample step ∧ run = runWalksImpl gen sample job ex := by
  cases h with
  | pat hpos pat minTrunkSize τ =>
      obtain ⟨step, hs⟩ := patSampler_live hg hU hpos pat minTrunkSize τ
      exact ⟨_, step, hs, rfl⟩
  | hpat hpos hrenews τ τ' =>
      obtain ⟨step, hs⟩ := hpatSampler_live hg hpos hrenews τ τ'
      exact ⟨_, step, hs, rfl⟩
  | patNode2vec hpos neighbors pat minTrunkSize τ =>
      obtain ⟨step, hs⟩ := patNode2vecSampler_live hg hU hpos neighbors pat minTrunkSize τ
      exact ⟨_, step, hs, rfl⟩
  | hpatNode2vec hpos neighbors hrenews τ τ' =>
      obtain ⟨step, hs⟩ := hpatNode2vecSampler_live hg hpos neighbors hrenews τ τ'
      exact ⟨_, step, hs, rfl⟩

include hg hU in
theorem PositiveRun.two_le_len (h : PositiveRun graph gen job ex run) (hgen : gen.toGenerator.Admissible U)
    (hstarts : job.StartsIn graph.numVertices) (hlen : 2 ≤ job.maxWalkLen) {i : Nat} (hi : i < job.numWalks)
    (hsome : 0 < graph.candidateSetLen (job.start i).toNat kSentinelStartTimestamp) : 2 ≤ run.len i := by
  obtain ⟨sample, step, hs, rfl⟩ := h.sampler hg hU
  have hlive := hs.walks hg hgen job hstarts ex
  have hwalk : (runWalksImpl gen sample job ex).len i = (walkAt gen job step i).length :=
    len_runWalksImpl gen hs.returns job ex hi
  have hpos : 0 < (walkAt gen job step i).length := Nat.succ_pos _
  by_contra hshort
  have hone : (runWalksImpl gen sample job ex).len i = 1 := by omega
  have hslot : (runWalksImpl gen sample job ex).slot job i 0 = ⟨job.start i, kSentinelStartTimestamp⟩ :=
    slot_live gen hs.returns job ex hi hpos
  have hnone := hlive.early i hi (by omega)
  rw [hone, Nat.sub_self, hslot] at hnone
  have hzero : graph.candidateSetLen (job.start i).toNat kSentinelStartTimestamp = 0 := hnone
  omega

end runs

/-- **The sentinel admits every entry exactly if no edge has its time**, and then no walk from the start list dies at its
start. -/
theorem sentinel_admits_iff [Arith R] [PosArith R] (S : StdSort) (self : TemporalGraph) {edges : List Edge}
    {numVertices : Int} {isDirected : Bool} (σ : Schedule edges isDirected)
    (hin : EndpointsIn edges (vertexCount edges numVertices)) (htimes : ∀ e ∈ edges, IsInt64 e.t) {U : R → Prop}
    (hU : NonnegDraws U) (gen : SeededGenerator R ρ) (hgen : gen.toGenerator.Admissible U) :
    let graph := TemporalGraph.build S self edges numVertices isDirected σ
    ((∀ u < graph.numVertices, graph.candidateSetLen u kSentinelStartTimestamp = graph.degree u) ∧
      ∀ (walksPerNode : Nat) (job : WalkJob) (ex : Execution R job.numWalks) (run : WalkRun),
        job.StartsIn graph.numVertices → 2 ≤ job.maxWalkLen → PositiveRun graph gen job ex run →
        ∀ i < job.numWalks, job.start i ∈ makeAllNodesStarts graph walksPerNode → 2 ≤ run.len i) ↔
    ∀ e ∈ edges, e.t ≠ kSentinelStartTimestamp := by
  intro graph
  have hg : graph.WellFormed := TemporalGraph.build_wellFormed S self σ hin
  have hn : graph.numVertices = vertexCount edges numVertices := TemporalGraph.numVertices_build S self σ hin
  have hstores : StoresInput graph edges (vertexCount edges numVertices) isDirected := by
    have hgraph : graph = _ := TemporalGraph.build_eq_ofAdj S self numVertices σ hin
    rw [hgraph]
    exact ofAdj_storesInput S σ hin
  have hall : (∀ u < graph.numVertices, graph.candidateSetLen u kSentinelStartTimestamp = graph.degree u) ↔
      ∀ e ∈ edges, e.t ≠ kSentinelStartTimestamp := by
    calc (∀ u < graph.numVertices, graph.candidateSetLen u kSentinelStartTimestamp = graph.degree u)
        ↔ ∀ u < vertexCount edges numVertices, ∀ e ∈ inbound edges isDirected u, e.1 < kSentinelStartTimestamp := by
          rw [hn]
          exact forall₂_congr fun u hu => hstores.candidates_eq_degree_iff hu _
      _ ↔ ∀ e ∈ edges, e.t < kSentinelStartTimestamp := inbound_times_iff hin (· < kSentinelStartTimestamp)
      _ ↔ ∀ e ∈ edges, e.t ≠ kSentinelStartTimestamp := forall₂_congr fun e he => lt_sentinel_iff (htimes e he)
  clear_value graph
  refine ⟨fun h => hall.mp h.1, fun h => ⟨hall.mpr h, fun walksPerNode job ex run hstarts hlen hrun i hi hmem => ?_⟩⟩
  obtain ⟨u, hu, hD, hstart⟩ := mem_makeAllNodesStarts hmem
  refine hrun.two_le_len hg hU hgen hstarts hlen hi ?_
  rw [hstart, Int.toNat_natCast, hall.mpr h u hu]
  exact hD

theorem sentinel_admits_iff_example :
    let graph := TemporalGraph.build StdSort.stable {} [⟨0, 1, 5⟩, ⟨2, 1, 2 ^ 63 - 2⟩] 3 true (Schedule.serial _ true)
    ∀ u < graph.numVertices, graph.candidateSetLen u kSentinelStartTimestamp = graph.degree u :=
  ((sentinel_admits_iff StdSort.stable {} (Schedule.serial _ true) (by unfold EndpointsIn; decide) (by decide)
    (nonnegDraws_unit ℚ) (Pcg64.generator ℚ) Pcg64.admissible).mpr (by decide)).1

/-- An edge at the largest time: its vertex has degree one, is in the start list, and has no candidate. -/
theorem sentinel_not_admits :
    let graph := TemporalGraph.build StdSort.stable {} [⟨0, 1, 2 ^ 63 - 1⟩] 2 true (Schedule.serial _ true)
    graph.degree 1 = 1 ∧ graph.candidateSetLen 1 kSentinelStartTimestamp = 0 ∧ makeAllNodesStarts graph 1 = [1] ∧
      (runWalksPat (Pcg64.generator ℚ) graph (Pat.build {} graph uniformBias kPatTrunkSizeMin (ForSchedule.serial _))
        uniformBias (WalkJob.ofStarts [1] 2 7 (by decide)) (Execution.serial ℚ 1)).walkLensOut = [1] := by
  decide

end Tea
