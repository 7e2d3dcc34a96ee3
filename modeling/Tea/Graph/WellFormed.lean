import Tea.Graph.Contents
/-!
# What the tables and samplers need of a graph

`WellFormed` collects what the other components rely on: the offsets are the scan of the degrees, the slices of
a vertex have its degree as length, timestamps ascend, and targets are vertex ids. Every built graph has these
properties (`build_wellFormed`).

The candidate set of `(u, t)` is then a prefix of the entries of `u`: an entry lies before `t` exactly if its
position is below `candidateSetLen` (`timestamp_lt_iff`).
-/

namespace Tea

open Layout Search

namespace TemporalGraph

structure WellFormed (g : TemporalGraph) : Prop where
  offset_eq : ∀ u ≤ g.numVertices,
    g.offsetOf u = (((List.range g.numVertices).map g.degree).take u).sum
  numEdges_eq : g.numEdges = ((List.range g.numVertices).map g.degree).sum
  length_timestamps : ∀ u < g.numVertices, (g.timestampsOf u).length = g.degree u
  length_targets : ∀ u < g.numVertices, (g.targetsOf u).length = g.degree u
  sorted : ∀ u < g.numVertices, (g.timestampsOf u).Pairwise (· ≤ ·)
  target_mem : ∀ u < g.numVertices, ∀ x ∈ g.targetsOf u, 0 ≤ x ∧ x < g.numVertices

theorem map_degree_ofAdj (adj : List (List Entry)) :
    (List.range adj.length).map (ofAdj adj).degree = adj.map List.length := by
  apply List.ext_getElem (by simp)
  intro u hu hu'
  rw [List.getElem_map, List.getElem_map, List.getElem_range]
  exact degree_ofAdj adj (by simpa using hu')

theorem wellFormed_ofAdj (adj : List (List Entry)) (hsorted : ∀ es ∈ adj, (es.map Prod.fst).Pairwise (· ≤ ·))
    (htarget : ∀ es ∈ adj, ∀ e ∈ es, 0 ≤ e.2 ∧ e.2 < adj.length) : (ofAdj adj).WellFormed where
  offset_eq u hu := by
    rw [offsetOf_ofAdj adj hu, numVertices_ofAdj, map_degree_ofAdj]
    rfl
  numEdges_eq := by rw [numEdges_ofAdj, numVertices_ofAdj, map_degree_ofAdj, List.length_flatten]
  length_timestamps u hu := by
    rw [timestampsOf_ofAdj adj hu, degree_ofAdj adj hu, List.length_map]
  length_targets u hu := by
    rw [targetsOf_ofAdj adj hu, degree_ofAdj adj hu, List.length_map]
  sorted u hu := by
    rw [timestampsOf_ofAdj adj hu]
    exact hsorted _ (List.getElem_mem hu)
  target_mem u hu x hx := by
    rw [targetsOf_ofAdj adj hu] at hx
    obtain ⟨e, he, rfl⟩ := List.mem_map.mp hx
    exact htarget _ (List.getElem_mem hu) e he

theorem adjacency_target_in (S : StdSort) {edges : List Edge} {isDirected : Bool} {n : Nat}
    (σ : Schedule edges isDirected) (hin : EndpointsIn edges n) :
    ∀ es ∈ adjacency S n σ.captured, ∀ e ∈ es, 0 ≤ e.2 ∧ e.2 < n := by
  intro es hes e he
  obtain ⟨v, -, rfl⟩ := List.mem_map.mp hes
  have he' := ((S.sort_perm _ _).trans (σ.arrivals_perm v)).mem_iff.mp he
  rw [inbound, List.mem_append] at he'
  rcases he' with he' | he'
  · obtain ⟨edge, hedge, rfl⟩ := List.mem_map.mp he'
    exact (hin edge (List.mem_filter.mp hedge).1).1
  · split_ifs at he'
    · simp at he'
    · obtain ⟨edge, hedge, rfl⟩ := List.mem_map.mp he'
      exact (hin edge (List.mem_filter.mp hedge).1).2

/-- **Every built graph is well formed.** -/
theorem build_wellFormed (S : StdSort) (self : TemporalGraph) {edges : List Edge} {numVertices : Int}
    {isDirected : Bool} (σ : Schedule edges isDirected)
    (hin : EndpointsIn edges (vertexCount edges numVertices)) :
    (build S self edges numVertices isDirected σ).WellFormed := by
  rw [build_eq_ofAdj S self numVertices σ hin]
  refine wellFormed_ofAdj _ (adjacency_sorted S _ _) ?_
  rw [length_adjacency]
  exact adjacency_target_in S σ hin

theorem target_in_build (S : StdSort) (self : TemporalGraph) {edges : List Edge} {numVertices : Int}
    {isDirected : Bool} (σ : Schedule edges isDirected)
    (hin : EndpointsIn edges (vertexCount edges numVertices)) :
    ∀ x ∈ (build S self edges numVertices isDirected σ).targets, 0 ≤ x ∧ x < vertexCount edges numVertices := by
  intro x hx
  rw [build_eq_ofAdj S self numVertices σ hin] at hx
  obtain ⟨e, he, rfl⟩ := List.mem_map.mp hx
  obtain ⟨es, hes, he⟩ := List.mem_flatten.mp he
  exact adjacency_target_in S σ hin es hes e he

theorem numVertices_build (S : StdSort) (self : TemporalGraph) {edges : List Edge} {numVertices : Int}
    {isDirected : Bool} (σ : Schedule edges isDirected)
    (hin : EndpointsIn edges (vertexCount edges numVertices)) :
    (build S self edges numVertices isDirected σ).numVertices = vertexCount edges numVertices := by
  rw [build_eq_ofAdj S self numVertices σ hin, numVertices_ofAdj, length_adjacency]

/-! ### Candidate sets -/

namespace WellFormed

variable {g : TemporalGraph} (hg : g.WellFormed) {u : Nat} (hu : u < g.numVertices)

include hg hu

theorem candidateSetLen_le (tPrev : Int) : g.candidateSetLen u tPrev ≤ g.degree u := by
  have h := lowerBound_le_length (fun a b => decide (a < b)) (g.timestampsOf u) tPrev
  rwa [hg.length_timestamps u hu] at h

theorem timestamp_lt_iff (tPrev : Int) {i : Nat} (hi : i < g.degree u) :
    (g.timestampsOf u).getD i 0 < tPrev ↔ i < g.candidateSetLen u tPrev := by
  have hi' : i < (g.timestampsOf u).length := by rwa [hg.length_timestamps u hu]
  rw [candidateSetLen, lowerBound_sorted (hg.sorted u hu), List.getD_eq_getElem _ _ hi']
  exact lt_iff_lt_countP (hg.sorted u hu) tPrev i hi'

theorem degree_pos_of_candidate {tPrev : Int} (h : 0 < g.candidateSetLen u tPrev) : 0 < g.degree u :=
  h.trans_le (hg.candidateSetLen_le hu tPrev)

theorem entry_mem {i : Nat} (hi : i < g.degree u) :
    ((g.timestampsOf u).getD i 0, (g.targetsOf u).getD i 0) ∈ g.entriesOf u := by
  have hts : i < (g.timestampsOf u).length := by rwa [hg.length_timestamps u hu]
  have htg : i < (g.targetsOf u).length := by rwa [hg.length_targets u hu]
  rw [List.getD_eq_getElem _ _ hts, List.getD_eq_getElem _ _ htg, entriesOf]
  have hzip : i < ((g.timestampsOf u).zip (g.targetsOf u)).length := by
    rw [List.length_zip]
    omega
  have hmem := List.getElem_mem hzip
  rwa [List.getElem_zip] at hmem

theorem target_getD_mem {i : Nat} (hi : i < g.degree u) :
    0 ≤ (g.targetsOf u).getD i 0 ∧ (g.targetsOf u).getD i 0 < g.numVertices := by
  have htg : i < (g.targetsOf u).length := by rwa [hg.length_targets u hu]
  rw [List.getD_eq_getElem _ _ htg]
  exact hg.target_mem u hu _ (List.getElem_mem htg)

theorem candidateSetLen_eq_zero_iff (tPrev : Int) :
    g.candidateSetLen u tPrev = 0 ↔ ∀ e ∈ g.entriesOf u, ¬ e.1 < tPrev := by
  constructor
  · intro h e he
    obtain ⟨i, hi, rfl⟩ := List.getElem_of_mem he
    rw [entriesOf, List.length_zip, hg.length_timestamps u hu, hg.length_targets u hu] at hi
    have hi' : i < g.degree u := by omega
    have hts : i < (g.timestampsOf u).length := by rwa [hg.length_timestamps u hu]
    have hiff := hg.timestamp_lt_iff hu tPrev hi'
    rw [List.getD_eq_getElem _ _ hts, h] at hiff
    simpa [entriesOf] using hiff
  · intro h
    by_contra hne
    have hpos : 0 < g.candidateSetLen u tPrev := Nat.pos_of_ne_zero hne
    have hdeg := hg.degree_pos_of_candidate hu hpos
    exact h _ (hg.entry_mem hu hdeg) ((hg.timestamp_lt_iff hu tPrev hdeg).mpr hpos)

end WellFormed

end TemporalGraph

theorem build_walkable (S : StdSort) (self : TemporalGraph) {edges : List Edge} {numVertices : Int} {isDirected : Bool}
    (σ : Schedule edges isDirected) (hin : EndpointsIn edges (vertexCount edges numVertices)) :
    let graph := TemporalGraph.build S self edges numVertices isDirected σ
    graph.WellFormed ∧ graph.numVertices = vertexCount edges numVertices ∧
      StoresInput graph edges graph.numVertices isDirected := by
  have hn := TemporalGraph.numVertices_build S self σ hin
  refine ⟨TemporalGraph.build_wellFormed S self σ hin, hn, ?_⟩
  rw [hn, TemporalGraph.build_eq_ofAdj S self numVertices σ hin]
  exact ofAdj_storesInput S σ hin

theorem hub_wellFormed : hub.WellFormed :=
  TemporalGraph.build_wellFormed StdSort.stable {} (Schedule.serial hubEdges true) endpointsIn_hubEdges

end Tea
