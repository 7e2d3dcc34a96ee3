import Tea.Csv.Faithful
import Tea.Graph.WellFormed
/-!
# From a file to a graph

The command-line programs build the graph of a file with one vertex more than its largest id, an `int32_t`. Nobody looks
at the ids in between: the reader takes negative ids and narrows large ones, the maximum starts at `-1`, adding one to the
largest `int32_t` wraps, and the offsets need room for one more. `SafeToBuild` collects what the builder relies on; it
holds exactly if every id, narrowed as the reader does, is neither negative nor one of the two largest `int32_t`.
-/

namespace Tea.Csv

open CString

/-- `compute_edge_stats(edges).max_node_id + 1`. -/
def numVerticesOf (edges : List Edge) : Int := toInt32 ((computeEdgeStats edges).maxNodeId + 1)

/-- What building the graph with `n` vertices relies on: the endpoints are vertices, so the subscripts of the counters,
the cursors and the offsets are in range; and the build does not overflow, stores the input, and its targets are vertices
and not the sentinel. -/
structure SafeToBuild (edges : List Edge) (n : Int) : Prop where
  endpoints : ∀ e ∈ edges, (0 ≤ e.u ∧ e.u < n) ∧ (0 ≤ e.v ∧ e.v < n)
  subscripts : ∀ (isDirected : Bool) (σ : Schedule edges isDirected),
    (∀ v ∈ σ.incremented, 0 ≤ v ∧ v < n) ∧ ∀ c ∈ σ.captured, 0 ≤ c.vertex ∧ c.vertex < n
  builds : ∀ (S : StdSort) (self : TemporalGraph) (isDirected : Bool) (σ : Schedule edges isDirected),
    ∃ g, TemporalGraph.buildInt32 S self edges n isDirected σ = some g ∧ StoresInput g edges n.toNat isDirected ∧
      ∀ x ∈ g.targets, (0 ≤ x ∧ x < n) ∧ x ≠ kWalkDeadSentinel

/-! ### The largest id -/

theorem foldl_add_maxNodeId (edges : List Edge) (s : EdgeStats) :
    (edges.foldl EdgeStats.add s).maxNodeId = edges.foldl (fun m e => max (max m e.u) e.v) s.maxNodeId := by
  induction edges generalizing s with
  | nil => rfl
  | cons e es ih =>
      have hstep : (s.add e).maxNodeId = max (max s.maxNodeId e.u) e.v := by
        unfold EdgeStats.add
        dsimp only
        split_ifs <;> omega
      rw [List.foldl_cons, ih, hstep, List.foldl_cons]

theorem maxNodeId_eq (edges : List Edge) : (computeEdgeStats edges).maxNodeId = maxId edges := by
  cases edges with
  | nil => rfl
  | cons e es => exact foldl_add_maxNodeId (e :: es) _

/-! ### When the build is safe -/

/-- The id is neither negative nor one of the two largest `int32_t`. -/
def IdInRange (x : Int) : Prop := 0 ≤ x ∧ x < 2 ^ 31 - 2

instance (x : Int) : Decidable (IdInRange x) := inferInstanceAs (Decidable (_ ∧ _))

/-- Endpoints are vertices, and there is room for one vertex more, exactly if all ids are in range. -/
theorem endpoints_iff (edges : List Edge) :
    ((∀ e ∈ edges, (0 ≤ e.u ∧ e.u < numVerticesOf edges) ∧ (0 ≤ e.v ∧ e.v < numVerticesOf edges)) ∧
        numVerticesOf edges < 2 ^ 31 - 1) ↔
      ∀ e ∈ edges, IdInRange e.u ∧ IdInRange e.v := by
  constructor
  · rintro ⟨h, hn⟩ e he
    obtain ⟨hu, hv⟩ := h e he
    unfold IdInRange
    omega
  · intro h
    have hle : maxId edges ≤ 2 ^ 31 - 3 := by
      apply foldl_max_le (by omega)
      intro d hd
      have := h d hd
      unfold IdInRange at this
      omega
    obtain ⟨hmax, hall⟩ := maxId_bounds edges
    have hn : numVerticesOf edges = maxId edges + 1 := by
      rw [numVerticesOf, maxNodeId_eq, toInt32_of_isInt32]
      exact ⟨by omega, by omega⟩
    refine ⟨fun e he => ?_, by omega⟩
    have hids := hall e he
    have hpos := h e he
    unfold IdInRange at hpos
    omega

theorem safeToBuild_of_endpoints {edges : List Edge} {n : Int} (hn : 0 ≤ n) (hroom : n < 2 ^ 31 - 1)
    (h : ∀ e ∈ edges, (0 ≤ e.u ∧ e.u < n) ∧ (0 ≤ e.v ∧ e.v < n)) : SafeToBuild edges n := by
  have hcount : vertexCount edges n = n.toNat := if_neg (by omega)
  have htoNat : (n.toNat : Int) = n := Int.toNat_of_nonneg hn
  have hin : EndpointsIn edges n.toNat := by
    intro e he
    rw [htoNat]
    exact h e he
  have hin' : EndpointsIn edges (vertexCount edges n) := hcount ▸ hin
  have hcaptured : ∀ (isDirected : Bool) (σ : Schedule edges isDirected), ∀ c ∈ σ.captured, 0 ≤ c.vertex ∧ c.vertex < n := by
    intro isDirected σ c hc
    have := σ.captured_in hin c hc
    rwa [htoNat] at this
  refine ⟨h, fun isDirected σ => ⟨fun v hv => ?_, hcaptured isDirected σ⟩, fun S self isDirected σ =>
    ⟨_, TemporalGraph.buildInt32_eq S self σ hin' (by omega), ?_, fun x hx => ?_⟩⟩
  · obtain ⟨c, hc, rfl⟩ := List.mem_map.mp (σ.incremented_perm_captured.mem_iff.mp hv)
    exact hcaptured isDirected σ c hc
  · rw [← hcount]
    exact (build_stores_input S self σ hin').1
  · have hx := TemporalGraph.target_in_build S self σ hin' x hx
    rw [hcount, htoNat] at hx
    refine ⟨hx, fun heq => ?_⟩
    rw [heq, kWalkDeadSentinel] at hx
    omega

theorem SafeToBuild.room {edges : List Edge} {n : Int} (h : SafeToBuild edges n) (hn : 0 ≤ n) : n < 2 ^ 31 - 1 := by
  have hcount : vertexCount edges n = n.toNat := if_neg (by omega)
  have hin : EndpointsIn edges (vertexCount edges n) := by
    intro e he
    rw [hcount, Int.toNat_of_nonneg hn]
    exact h.endpoints e he
  by_contra hlarge
  obtain ⟨g, hg, -⟩ := h.builds StdSort.stable {} true (Schedule.serial edges true)
  rw [TemporalGraph.buildInt32_eq_none StdSort.stable {} _ hin (by omega)] at hg
  cases hg

/-- **An accepted file is safe to build exactly if its ids, saturated and narrowed, are in range.** The ids are those of
the bytes of its lines, with what stands behind a line where a fraction runs out of it. -/
theorem accepted_safeToBuild_iff {memory : Memory} {path : String} {content : List Char} {edges : List Edge}
    (hread : readEdgesCsv memory path (some content) = .ok edges) :
    SafeToBuild edges (numVerticesOf edges) ↔ ∀ d ∈ dataLines content, ∀ a b c, Row (bytesOf memory d) a b c →
      IdInRange (toInt32 (clampLongLong a)) ∧ IdInRange (toInt32 (clampLongLong b)) := by
  obtain ⟨-, hlines⟩ := readEdgesCsv_eq_ok.mp hread
  have hids : (∀ e ∈ edges, IdInRange e.u ∧ IdInRange e.v) ↔
      ∀ d ∈ dataLines content, ∀ a b c, Row (bytesOf memory d) a b c →
        IdInRange (toInt32 (clampLongLong a)) ∧ IdInRange (toInt32 (clampLongLong b)) := by
    clear hread
    generalize dataLines content = ds at hlines
    induction hlines with
    | nil => simp
    | @cons d e ds es haccept _ ih =>
        obtain ⟨a, b, c, hrow, rfl⟩ := (parseLine_eq_ok d.1).mp haccept
        rw [List.forall_mem_cons, List.forall_mem_cons, ih]
        refine and_congr_left fun _ => ⟨fun h a' b' c' hrow' => ?_, fun h => h a b c hrow⟩
        obtain ⟨rfl, rfl, rfl⟩ := hrow.unique hrow'
        exact h
  rw [← hids, ← endpoints_iff]
  rcases eq_or_ne edges [] with rfl | hempty
  · exact iff_of_true (safeToBuild_of_endpoints (by decide) (by decide) (by simp)) ⟨by simp, by decide⟩
  obtain ⟨e, he⟩ := List.exists_mem_of_ne_nil edges hempty
  constructor
  · intro h
    have := h.endpoints e he
    exact ⟨h.endpoints, h.room (by omega)⟩
  · rintro ⟨h, hroom⟩
    have := h e he
    exact safeToBuild_of_endpoints (by omega) hroom h

/-- Two edges with a fraction, a carriage return and an empty line. -/
theorem accepted_safeToBuild_iff_example :
    SafeToBuild [⟨0, 3, 5⟩, ⟨2, 1, -7⟩] (numVerticesOf [⟨0, 3, 5⟩, ⟨2, 1, -7⟩]) := by
  have hread : readEdgesCsv (fun _ => []) "f" (some "u,v,t\r\n0.5,3,5\r\n\n2,1,-7".toList) =
      .ok [⟨0, 3, 5⟩, ⟨2, 1, -7⟩] := by decide
  have hlines : dataLines "u,v,t\r\n0.5,3,5\r\n\n2,1,-7".toList =
      [(2, "0.5,3,5\r".toList), (4, "2,1,-7".toList)] := by decide
  refine (accepted_safeToBuild_iff hread).mpr fun d hd a b c hrow => ?_
  have hedge : (parseLine d.1 (bytesOf (fun _ => []) d)).result = .ok ⟨0, 3, 5⟩ ∨
      (parseLine d.1 (bytesOf (fun _ => []) d)).result = .ok ⟨2, 1, -7⟩ := by
    rw [hlines, List.mem_pair] at hd
    rcases hd with rfl | rfl
    · exact Or.inl (by decide)
    · exact Or.inr (by decide)
  rw [parseLine_of_row d.1 hrow] at hedge
  rcases hedge with hedge | hedge
  all_goals
    obtain ⟨hu, hv, -⟩ := Edge.mk.inj (Except.ok.inj hedge)
    rw [hu, hv]
    decide

/-- A file with the id `-1`: there is one vertex, and the walk that steps to the stored target looks dead. -/
theorem accepted_not_safeToBuild :
    readEdgesCsv (fun _ => []) "f" (some "h\n-1,0,5\n".toList) = .ok [⟨-1, 0, 5⟩] ∧
      ¬ SafeToBuild [⟨-1, 0, 5⟩] (numVerticesOf [⟨-1, 0, 5⟩]) ∧
      (TemporalGraph.build StdSort.stable {} [⟨-1, 0, 5⟩] (numVerticesOf [⟨-1, 0, 5⟩]) true
        (Schedule.serial _ true)).targetsOf 0 = [kWalkDeadSentinel] := by
  refine ⟨by decide, fun h => ?_, by decide⟩
  have hneg : (0 : Int) ≤ -1 := (h.endpoints ⟨-1, 0, 5⟩ (by simp)).1.1
  omega

end Tea.Csv
