import Tea.Graph.Ties
import Tea.Walk.Steps
/-!
# Which inputs give the same graph under every schedule

`ScheduleIndependent` is reproducibility: any two builds of an edge list store the same arrays, and walks from the same
seed and start list are the same on both. It holds exactly of the inputs whose ties are settled
(`build_scheduleIndependent_iff`). The sort of a vertex compares timestamps only, so two entries of one vertex with
equal timestamps that different threads scatter stay in the order of arrival: on `tiedEdges`, two threads suffice for
two different graphs.
-/

namespace Tea

/-- The arrays agree element by element. -/
def SameArrays (g g' : TemporalGraph) : Prop :=
  g.offsets = g'.offsets ∧ g.timestamps = g'.timestamps ∧ g.targets = g'.targets

theorem SameArrays.eq {g g' : TemporalGraph} (h : SameArrays g g') (hn : g.n = g'.n) : g = g' := by
  cases g
  cases g'
  obtain ⟨rfl, rfl, rfl⟩ := h
  obtain rfl := hn
  rfl

/-- Every runner makes the same walks on both graphs, from the same seed and start list, with tables and neighbor sets
built on each graph. -/
structure SameWalks (g g' : TemporalGraph) : Prop where
  pat : ∀ {R P ρ : Type} [Arith R] (gen : SeededGenerator R ρ) (bias : Bias R P) (minTrunkSize : Int)
    (τ : ForSchedule g.numVertices) (τ' : ForSchedule g'.numVertices) (job : WalkJob) (ex ex' : Execution R job.numWalks),
    runWalksPat gen g (Pat.build {} g bias minTrunkSize τ) bias job ex =
      runWalksPat gen g' (Pat.build {} g' bias minTrunkSize τ') bias job ex'
  hpat : ∀ {R P ρ : Type} [Arith R] (gen : SeededGenerator R ρ) (bias : Bias R P) (auxBudgetBytes : Nat)
    (τ τ₁ : ForSchedule g.numVertices) (τ' τ₁' : ForSchedule g'.numVertices) (job : WalkJob)
    (ex ex' : Execution R job.numWalks),
    runWalksHpat gen g (Hpat.build {} g bias auxBudgetBytes τ τ₁) bias job ex =
      runWalksHpat gen g' (Hpat.build {} g' bias auxBudgetBytes τ' τ₁') bias job ex'
  patNode2vec : ∀ {R ρ : Type} [Arith R] (gen : SeededGenerator R ρ) (exp : R → R) (bias : Node2VecBias R)
    (inputWasDirected : Bool) (minTrunkSize : Int) (τ : ForSchedule g.numVertices) (τ' : ForSchedule g'.numVertices)
    (υ : OutSchedule g) (υ' : OutSchedule g') (job : WalkJob) (ex ex' : Execution R job.numWalks),
    runWalksPatNode2vec gen exp g (Pat.build {} g (bias.toBias exp) minTrunkSize τ) bias
        (NeighborSets.build {} g inputWasDirected υ) job ex =
      runWalksPatNode2vec gen exp g' (Pat.build {} g' (bias.toBias exp) minTrunkSize τ') bias
        (NeighborSets.build {} g' inputWasDirected υ') job ex'
  hpatNode2vec : ∀ {R ρ : Type} [Arith R] (gen : SeededGenerator R ρ) (exp : R → R) (bias : Node2VecBias R)
    (inputWasDirected : Bool) (auxBudgetBytes : Nat) (τ τ₁ : ForSchedule g.numVertices)
    (τ' τ₁' : ForSchedule g'.numVertices) (υ : OutSchedule g) (υ' : OutSchedule g') (job : WalkJob)
    (ex ex' : Execution R job.numWalks),
    runWalksHpatNode2vec gen exp g (Hpat.build {} g (bias.toBias exp) auxBudgetBytes τ τ₁) bias
        (NeighborSets.build {} g inputWasDirected υ) job ex =
      runWalksHpatNode2vec gen exp g' (Hpat.build {} g' (bias.toBias exp) auxBudgetBytes τ' τ₁') bias
        (NeighborSets.build {} g' inputWasDirected υ') job ex'

theorem runWalksImpl_execution {R ρ : Type} (gen : SeededGenerator R ρ) {sample : Sampler R} {step : StepFn R}
    (h : sample.Returns step) (job : WalkJob) (ex ex' : Execution R job.numWalks) :
    runWalksImpl gen sample job ex = runWalksImpl gen sample job ex' := by
  rw [runWalksImpl_eq gen h, runWalksImpl_eq gen h]

theorem sameWalks_refl {g : TemporalGraph} (hg : g.WellFormed) : SameWalks g g where
  pat gen bias minTrunkSize τ τ' job ex ex' := by
    rw [Pat.build_eq hg, Pat.build_eq hg]
    exact runWalksImpl_execution gen (patSampler_returns g _ bias) job ex ex'
  hpat gen bias auxBudgetBytes τ τ₁ τ' τ₁' job ex ex' := by
    rw [Hpat.build_eq hg, Hpat.build_eq hg]
    exact runWalksImpl_execution gen (hpatSampler_returns g _ bias) job ex ex'
  patNode2vec gen exp bias inputWasDirected minTrunkSize τ τ' υ υ' job ex ex' := by
    rw [Pat.build_eq hg, Pat.build_eq hg, NeighborSets.build_eq hg, NeighborSets.build_eq hg]
    exact runWalksImpl_execution gen (patNode2vecSampler_returns exp g bias _ _) job ex ex'
  hpatNode2vec gen exp bias inputWasDirected auxBudgetBytes τ τ₁ τ' τ₁' υ υ' job ex ex' := by
    rw [Hpat.build_eq hg, Hpat.build_eq hg, NeighborSets.build_eq hg, NeighborSets.build_eq hg]
    exact runWalksImpl_execution gen (hpatNode2vecSampler_returns exp g bias _ _) job ex ex'

/-- All builds of the input store the same arrays and make the same walks, for every sorting function and all
executions of the parallel loops. -/
def ScheduleIndependent (edges : List Edge) (numVertices : Int) (isDirected : Bool) : Prop :=
  ∀ (S : StdSort) (self self' : TemporalGraph) (σ σ' : Schedule edges isDirected),
    SameArrays (TemporalGraph.build S self edges numVertices isDirected σ)
      (TemporalGraph.build S self' edges numVertices isDirected σ') ∧
    SameWalks (TemporalGraph.build S self edges numVertices isDirected σ)
      (TemporalGraph.build S self' edges numVertices isDirected σ')

theorem adjacency_eq_of_sameArrays {S : StdSort} {self self' : TemporalGraph} {edges : List Edge} {numVertices : Int}
    {isDirected : Bool} {σ σ' : Schedule edges isDirected}
    (hin : EndpointsIn edges (vertexCount edges numVertices))
    (h : SameArrays (TemporalGraph.build S self edges numVertices isDirected σ)
      (TemporalGraph.build S self' edges numVertices isDirected σ')) :
    adjacency S (vertexCount edges numVertices) σ.captured = adjacency S (vertexCount edges numVertices) σ'.captured := by
  rw [TemporalGraph.build_eq_ofAdj S self numVertices σ hin, TemporalGraph.build_eq_ofAdj S self' numVertices σ' hin] at h
  have hn : (TemporalGraph.ofAdj (adjacency S (vertexCount edges numVertices) σ.captured)).n =
      (TemporalGraph.ofAdj (adjacency S (vertexCount edges numVertices) σ'.captured)).n := by
    show (adjacency S _ σ.captured).length = (adjacency S _ σ'.captured).length
    rw [length_adjacency, length_adjacency]
  exact TemporalGraph.ofAdj_injective (h.eq hn)

/-- **The build is reproducible exactly on the inputs whose ties are settled.** -/
theorem build_scheduleIndependent_iff {edges : List Edge} {numVertices : Int} (isDirected : Bool)
    (hin : EndpointsIn edges (vertexCount edges numVertices)) :
    ScheduleIndependent edges numVertices isDirected ↔ TiesSettled edges isDirected := by
  constructor
  · intro h
    exact settled_of_adjacency_eq hin fun S σ σ' => adjacency_eq_of_sameArrays hin (h S {} {} σ σ').1
  · intro hsettled S self self' σ σ'
    have hg : (TemporalGraph.build S self edges numVertices isDirected σ).WellFormed :=
      TemporalGraph.build_wellFormed S self σ hin
    have heq : TemporalGraph.build S self' edges numVertices isDirected σ' =
        TemporalGraph.build S self edges numVertices isDirected σ := by
      rw [TemporalGraph.build_eq_ofAdj S self' numVertices σ' hin, TemporalGraph.build_eq_ofAdj S self numVertices σ hin,
        adjacency_eq_of_settled hsettled S _ σ' σ]
    rw [heq]
    exact ⟨⟨rfl, rfl, rfl⟩, sameWalks_refl hg⟩

theorem build_scheduleIndependent_iff_example : ScheduleIndependent [⟨0, 1, 5⟩, ⟨2, 1, 5⟩, ⟨1, 0, 3⟩] 3 true := by
  refine (build_scheduleIndependent_iff true (by unfold EndpointsIn; decide)).mpr fun v => .inr ?_
  intro i j e e' hi hj _ _
  have hi' : i < 3 := (List.getElem?_eq_some_iff.mp hi).1
  have hj' : j < 3 := (List.getElem?_eq_some_iff.mp hj).1
  unfold kScatterChunk
  omega

/-- One chunk of edges into vertex 1, and one more edge into it from another vertex at the same time. -/
def tiedEdges : List Edge := List.replicate kScatterChunk ⟨0, 1, 0⟩ ++ [⟨2, 1, 0⟩]

theorem tiedEdges_schedules (S : StdSort) : ∃ σ σ' : Schedule tiedEdges true, σ.threads = 2 ∧ σ'.threads = 2 ∧
    ¬ SameArrays (TemporalGraph.build S {} tiedEdges 3 true σ) (TemporalGraph.build S {} tiedEdges 3 true σ') := by
  have hin : EndpointsIn tiedEdges (vertexCount tiedEdges 3) := by
    intro e he
    show (0 ≤ e.u ∧ e.u < 3) ∧ 0 ≤ e.v ∧ e.v < 3
    rcases List.mem_append.mp he with he | he
    · rw [List.eq_of_mem_replicate he]
      decide
    · rw [List.mem_singleton.mp he]
      decide
  have hfirst : tiedEdges[0]? = some ⟨0, 1, 0⟩ := by
    rw [tiedEdges, List.getElem?_append_left (by rw [List.length_replicate]; decide), List.getElem?_replicate,
      if_pos (by decide)]
  have hlast : tiedEdges[kScatterChunk]? = some ⟨2, 1, 0⟩ := by
    rw [tiedEdges, List.getElem?_append_right (by rw [List.length_replicate]), List.length_replicate, Nat.sub_self]
    rfl
  have htie : ∃ σ σ' : Schedule tiedEdges true, σ.threads = 2 ∧ σ'.threads = 2 ∧
      adjacency S 3 σ.captured ≠ adjacency S 3 σ'.captured :=
    exists_schedules_of_tie S Nat.two_pos hfirst hlast (by decide) (List.mem_singleton.mpr rfl)
      (List.mem_singleton.mpr rfl) (v := 1) (by decide) rfl rfl rfl (by decide)
  obtain ⟨σ, σ', hthreads, hthreads', hne⟩ := htie
  exact ⟨σ, σ', hthreads, hthreads', fun h => hne (adjacency_eq_of_sameArrays hin h)⟩

theorem tiedEdges_not_scheduleIndependent : ¬ ScheduleIndependent tiedEdges 3 true := by
  intro h
  obtain ⟨σ, σ', -, -, hne⟩ := tiedEdges_schedules StdSort.stable
  exact hne (h StdSort.stable {} {} σ σ').1

end Tea
