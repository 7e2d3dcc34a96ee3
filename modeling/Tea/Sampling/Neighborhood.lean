import Tea.Lib.SortUnique
import Tea.Sampling.NeighborSets
/-!
# Neighbor sets are the undirected neighborhood

`Adjacent edges u v` says that some input edge joins `u` and `v`, in either direction. A graph built from directed edges
stores an edge at its head only, and the transpose pass recovers it at its tail; a graph built from undirected ones
stores it at both ends. Either way the gathered list of `u` has exactly the vertices adjacent to `u` as members
(`mem_neighborsOf`), and sorting and dropping duplicates leaves a list that is determined by its members.
-/

namespace Tea

open Layout Search

/-- Some input edge joins `u` and `v`. -/
def Adjacent (edges : List Edge) (u v : Int) : Prop :=
  ∃ e ∈ edges, (e.u = u ∧ e.v = v) ∨ (e.u = v ∧ e.v = u)

theorem adjacent_comm {edges : List Edge} {u v : Int} : Adjacent edges u v ↔ Adjacent edges v u :=
  exists_congr fun _ => and_congr_right fun _ => or_comm

section stored

variable {graph : TemporalGraph} {edges : List Edge} {n : Nat} {isDirected : Bool}

theorem StoresInput.targetsOf_eq (h : StoresInput graph edges n isDirected) {v : Nat} (hv : v < n) :
    graph.targetsOf v = (graph.entriesOf v).map Prod.snd := by
  obtain ⟨htargets, htimes⟩ := h.in_step v hv
  rw [TemporalGraph.entriesOf, List.map_snd_zip (by omega)]

theorem mem_inbound_snd {v : Nat} {x : Int} :
    x ∈ (inbound edges isDirected v).map Prod.snd ↔
      (∃ e ∈ edges, e.u = x ∧ e.v = v) ∨ (isDirected = false ∧ ∃ e ∈ edges, e.u = v ∧ e.v = x) := by
  rw [inbound, List.map_append, List.mem_append]
  refine or_congr ?_ ?_
  · simp only [List.map_map, List.mem_map, List.mem_filter, decide_eq_true_eq, Function.comp_apply]
    exact exists_congr fun e => by tauto
  · cases isDirected with
    | true => simp
    | false =>
        simp only [Bool.false_eq_true, if_false, List.map_map, List.mem_map, List.mem_filter, decide_eq_true_eq,
          Function.comp_apply, true_and]
        exact exists_congr fun e => by tauto

theorem StoresInput.mem_targetsOf (h : StoresInput graph edges n isDirected) {v : Nat} (hv : v < n) {x : Int} :
    x ∈ graph.targetsOf v ↔
      (∃ e ∈ edges, e.u = x ∧ e.v = v) ∨ (isDirected = false ∧ ∃ e ∈ edges, e.u = v ∧ e.v = x) := by
  rw [h.targetsOf_eq hv, ((h.entries v hv).map Prod.snd).mem_iff, mem_inbound_snd]

end stored

namespace NeighborSets

section members

variable {graph : TemporalGraph} {edges : List Edge}

theorem mem_outNeighborsOf (h : StoresInput graph edges graph.numVertices true)
    (hin : EndpointsIn edges graph.numVertices) {u : Nat} {x : Int} :
    x ∈ outNeighborsOf graph u ↔ ∃ e ∈ edges, e.u = u ∧ e.v = x := by
  simp only [outNeighborsOf, capturesAt, outCaptures, List.mem_map, List.mem_filter, List.mem_flatMap, List.mem_range,
    decide_eq_true_eq]
  constructor
  · rintro ⟨c, ⟨⟨v, hv, y, hy, rfl⟩, rfl⟩, rfl⟩
    rcases (h.mem_targetsOf hv).mp hy with hedge | ⟨hfalse, -⟩
    · exact hedge
    · exact absurd hfalse (by decide)
  · rintro ⟨e, he, hu, rfl⟩
    obtain ⟨hlo, hhi⟩ := (hin e he).2
    have hcast : ((e.v.toNat : Nat) : Int) = e.v := Int.toNat_of_nonneg hlo
    refine ⟨⟨u, e.v.toNat, 0⟩, ⟨⟨e.v.toNat, by omega, u, ?_, rfl⟩, rfl⟩, hcast⟩
    exact (h.mem_targetsOf (by omega)).mpr (.inl ⟨e, he, hu, hcast.symm⟩)

theorem mem_neighborsOf {isDirected : Bool} (h : StoresInput graph edges graph.numVertices isDirected)
    (hin : EndpointsIn edges graph.numVertices) {u : Nat} (hu : u < graph.numVertices) {x : Int} :
    x ∈ neighborsOf graph isDirected u ↔ Adjacent edges u x := by
  have hsplit : Adjacent edges u x ↔ (∃ e ∈ edges, e.u = x ∧ e.v = u) ∨ ∃ e ∈ edges, e.u = u ∧ e.v = x := by
    rw [← exists_or]
    exact exists_congr fun e => by tauto
  show x ∈ sortUnique _ ↔ _
  rw [mem_sortUnique, List.mem_append, h.mem_targetsOf hu, hsplit]
  cases isDirected with
  | true => simp [mem_outNeighborsOf h hin]
  | false => simp

end members

/-! ### Reading the stored lists -/

section stored

variable (graph : TemporalGraph) (isDirected : Bool) {u : Nat}

theorem offsets_ofGraph (hu : u ≤ graph.numVertices) :
    (ofGraph graph isDirected).offsets.getD u 0 =
      start ((List.range graph.numVertices).map (neighborsOf graph isDirected)) u :=
  getD_exclusiveScan _ u (by simpa using hu)

theorem offsets_succ_ofGraph (hu : u < graph.numVertices) :
    (ofGraph graph isDirected).offsets.getD (u + 1) 0 =
      (ofGraph graph isDirected).offsets.getD u 0 + (neighborsOf graph isDirected u).length := by
  rw [offsets_ofGraph graph isDirected hu, offsets_ofGraph graph isDirected hu.le,
    start_succ _ u (by simpa using hu), List.getElem_map, List.getElem_range]

theorem offsets_le_ofGraph (hu : u ≤ graph.numVertices) :
    (ofGraph graph isDirected).offsets.getD u 0 ≤ (ofGraph graph isDirected).neighbors.length := by
  rw [offsets_ofGraph graph isDirected hu]
  refine (start_mono _ hu).trans (le_of_eq ?_)
  have hlast := start_length ((List.range graph.numVertices).map (neighborsOf graph isDirected))
  rwa [List.length_map, List.length_range] at hlast

theorem slice_ofGraph (hu : u < graph.numVertices) :
    slice (ofGraph graph isDirected).neighbors ((ofGraph graph isDirected).offsets.getD u 0)
      ((ofGraph graph isDirected).degree u) = neighborsOf graph isDirected u := by
  have hlen : u < ((List.range graph.numVertices).map (neighborsOf graph isDirected)).length := by simpa using hu
  have hblock := slice_flatten ((List.range graph.numVertices).map (neighborsOf graph isDirected)) u hlen
  rw [List.getElem_map, List.getElem_range] at hblock
  rw [degree, offsets_succ_ofGraph graph isDirected hu, Nat.add_sub_cancel_left, offsets_ofGraph graph isDirected hu.le]
  exact hblock

theorem pairwise_neighborsOf (u : Nat) : (neighborsOf graph isDirected u).Pairwise (· < ·) :=
  pairwise_sortUnique _

theorem contains_ofGraph (hu : u < graph.numVertices) (v : Int) :
    (ofGraph graph isDirected).contains u v = true ↔ v ∈ neighborsOf graph isDirected u := by
  have hslice := slice_ofGraph graph isDirected hu
  unfold contains
  rw [Int.toNat_natCast]
  unfold degree at hslice
  dsimp only
  rw [hslice]
  exact binarySearch_sorted ((pairwise_neighborsOf graph isDirected u).imp le_of_lt) v

end stored

/-! ### The neighborhood -/

/-- The list stored for `u`. -/
def listOf (self : NeighborSets) (u : Nat) : List Int := slice self.neighbors (self.offsets.getD u 0) (self.degree u)

theorem ofGraph_congr {graph graph' : TemporalGraph} {edges : List Edge} {isDirected isDirected' : Bool}
    (hn : graph.numVertices = graph'.numVertices) (h : StoresInput graph edges graph.numVertices isDirected)
    (h' : StoresInput graph' edges graph'.numVertices isDirected') (hin : EndpointsIn edges graph.numVertices) :
    ofGraph graph isDirected = ofGraph graph' isDirected' := by
  have hlists : (List.range graph.numVertices).map (neighborsOf graph isDirected) =
      (List.range graph'.numVertices).map (neighborsOf graph' isDirected') := by
    rw [← hn]
    refine List.map_congr_left fun u hu => sortUnique_congr fun x => ?_
    have hu : u < graph.numVertices := List.mem_range.mp hu
    have hleft := mem_neighborsOf h hin hu (x := x)
    have hright := mem_neighborsOf h' (hn ▸ hin) (hn ▸ hu) (x := x)
    unfold neighborsOf at hleft hright
    exact mem_sortUnique.symm.trans (hleft.trans (hright.symm.trans mem_sortUnique))
  unfold ofGraph
  rw [hlists]

/-- What the sets of one graph say about the edges it stores. -/
structure IsNeighborhood (sets : NeighborSets) (edges : List Edge) (n : Nat) : Prop where
  contains_iff : ∀ u v : Nat, u < n → v < n → (sets.contains u v = true ↔ Adjacent edges u v)
  contains_comm : ∀ u v : Nat, u < n → v < n → sets.contains u v = sets.contains v u
  ascending : ∀ u < n, (sets.listOf u).Pairwise (· < ·)
  degree_eq : ∀ u < n, sets.degree u = Set.ncard {v : Int | Adjacent edges u v}

section build

variable {graph : TemporalGraph} {edges : List Edge} {isDirected : Bool} (hg : graph.WellFormed)
  (hs : StoresInput graph edges graph.numVertices isDirected) (hin : EndpointsIn edges graph.numVertices)

include hs hin in
theorem ofGraph_isNeighborhood : IsNeighborhood (ofGraph graph isDirected) edges graph.numVertices := by
  have hcontains : ∀ u v : Nat, u < graph.numVertices →
      ((ofGraph graph isDirected).contains u v = true ↔ Adjacent edges u v) := by
    intro u v hu
    rw [contains_ofGraph graph isDirected hu, mem_neighborsOf hs hin hu]
  refine ⟨fun u v hu _ => hcontains u v hu, fun u v hu hv => ?_, fun u hu => ?_, fun u hu => ?_⟩
  · rw [Bool.eq_iff_iff, hcontains u v hu, hcontains v u hv, adjacent_comm]
  · rw [listOf, slice_ofGraph graph isDirected hu]
    exact pairwise_neighborsOf graph isDirected u
  · have hset : {v : Int | Adjacent edges u v} =
        {v | v ∈ graph.targetsOf u ++ if isDirected then outNeighborsOf graph u else []} := by
      ext v
      rw [Set.mem_ofPred_eq, ← mem_neighborsOf hs hin hu]
      exact mem_sortUnique
    rw [hset, ← length_sortUnique, degree, offsets_succ_ofGraph graph isDirected hu, Nat.add_sub_cancel_left]
    rfl

include hg in
theorem gather_fits (old : NeighborSets) (τ : OutSchedule graph) {u : Nat} (hu : u < graph.numVertices) :
    let sets := old.build graph isDirected τ
    let out := if isDirected then transpose graph τ else ([], [])
    sets.offsets.getD u 0 + (gather graph isDirected out u).length = sets.offsets.getD (u + 1) 0 ∧
      sets.offsets.getD (u + 1) 0 ≤ sets.neighbors.length := by
  intro sets out
  have hsets : sets = ofGraph graph isDirected := build_eq hg old isDirected τ
  rw [hsets, gather_eq hg isDirected τ hu, offsets_succ_ofGraph graph isDirected hu]
  refine ⟨rfl, ?_⟩
  rw [← offsets_succ_ofGraph graph isDirected hu]
  exact offsets_le_ofGraph graph isDirected hu

end build

/-- **The neighbor sets are the undirected neighborhood** of the input, under every schedule of both builds and in
both direction modes; and the modes store the same sets. -/
theorem build_neighborhood (S : StdSort) (self : TemporalGraph) (edges : List Edge) (numVertices : Int)
    (hin : EndpointsIn edges (vertexCount edges numVertices)) :
    let n := vertexCount edges numVertices
    let graph := fun (isDirected : Bool) (σ : Schedule edges isDirected) =>
      TemporalGraph.build S self edges numVertices isDirected σ
    (∀ (isDirected : Bool) (σ : Schedule edges isDirected) (old : NeighborSets) (τ : OutSchedule (graph isDirected σ)),
      let sets := old.build (graph isDirected σ) isDirected τ
      let out := if isDirected then transpose (graph isDirected σ) τ else ([], [])
      IsNeighborhood sets edges n ∧
        ∀ u < n, sets.offsets.getD u 0 + (gather (graph isDirected σ) isDirected out u).length =
            sets.offsets.getD (u + 1) 0 ∧
          sets.offsets.getD (u + 1) 0 ≤ sets.neighbors.length) ∧
    ∀ (σ : Schedule edges true) (σ' : Schedule edges false) (old old' : NeighborSets)
      (τ : OutSchedule (graph true σ)) (τ' : OutSchedule (graph false σ')),
      old.build (graph true σ) true τ = old'.build (graph false σ') false τ' := by
  intro n graph
  have hg : ∀ isDirected σ, (graph isDirected σ).WellFormed := fun isDirected σ =>
    TemporalGraph.build_wellFormed S self σ hin
  have hn : ∀ isDirected σ, (graph isDirected σ).numVertices = n := fun isDirected σ =>
    TemporalGraph.numVertices_build S self σ hin
  have hin' : ∀ isDirected σ, EndpointsIn edges (graph isDirected σ).numVertices := by
    intro isDirected σ
    rw [hn]
    exact hin
  have hs : ∀ isDirected σ, StoresInput (graph isDirected σ) edges (graph isDirected σ).numVertices isDirected := by
    intro isDirected σ
    rw [hn]
    show StoresInput (TemporalGraph.build S self edges numVertices isDirected σ) edges n isDirected
    rw [TemporalGraph.build_eq_ofAdj S self numVertices σ hin]
    exact ofAdj_storesInput S σ hin
  refine ⟨fun isDirected σ old τ => ⟨?_, fun u hu => ?_⟩, fun σ σ' old old' τ τ' => ?_⟩
  · rw [build_eq (hg isDirected σ), ← hn isDirected σ]
    exact ofGraph_isNeighborhood (hs isDirected σ) (hin' isDirected σ)
  · rw [← hn isDirected σ] at hu
    exact gather_fits (hg isDirected σ) old τ hu
  · rw [build_eq (hg true σ), build_eq (hg false σ')]
    exact ofGraph_congr ((hn true σ).trans (hn false σ').symm) (hs true σ) (hs false σ') (hin' true σ)

/-- A self-loop, a reciprocal pair, a duplicate and an isolated vertex. -/
theorem build_neighborhood_example :
    let edges : List Edge := [⟨0, 0, 1⟩, ⟨0, 1, 2⟩, ⟨1, 0, 3⟩, ⟨0, 1, 4⟩]
    let graph := TemporalGraph.build StdSort.stable {} edges 3 true (Schedule.serial edges true)
    (NeighborSets.build {} graph true (OutSchedule.serial graph)).contains (1 : Nat) (0 : Nat) = true ↔
      Adjacent edges (1 : Nat) (0 : Nat) :=
  ((build_neighborhood StdSort.stable {} _ 3 (by unfold EndpointsIn; decide)).1 true (Schedule.serial _ true) {}
    (OutSchedule.serial _)).1.contains_iff 1 0 (by decide) (by decide)

end NeighborSets

end Tea
