import Tea.Graph.Adjacency
/-!
# What the built graph contains

Under every schedule the build stores every input edge once on each side it belongs to, and nothing else:
the offsets are the running degree sums, every cell of the arenas is written by one scatter write, and the
slice of a vertex is a time-sorted permutation of the entries that the input gives it. The candidate set of
a time is therefore the initial segment that the binary search returns.
-/

namespace Tea

open Layout

/-- The entries of `v` in the input: `(t, u)` for an edge `(u, v, t)`, and if undirected `(t, x)` for an edge
`(v, x, t)` too. -/
def inbound (edges : List Edge) (isDirected : Bool) (v : Nat) : List Entry :=
  (edges.filter fun e => e.v = (v : Int)).map (fun e => (e.t, e.u)) ++
    if isDirected then [] else (edges.filter fun e => e.u = (v : Int)).map fun e => (e.t, e.v)

/-- The stored entries of `v`, the two arrays zipped. -/
def TemporalGraph.entriesOf (g : TemporalGraph) (v : Nat) : List Entry :=
  (g.timestampsOf v).zip (g.targetsOf v)

/-- `g` stores exactly the input, in time order. -/
structure StoresInput (g : TemporalGraph) (edges : List Edge) (n : Nat) (isDirected : Bool) : Prop where
  numVertices : g.numVertices = n
  offsets_length : g.offsets.length = n + 1
  offsets_first : g.offsetOf 0 = 0
  offsets_sorted : g.offsets.Pairwise (· ≤ ·)
  offsets_last : g.offsetOf n = if isDirected then edges.length else 2 * edges.length
  arenas_length : g.targets.length = g.offsetOf n ∧ g.timestamps.length = g.offsetOf n
  in_step : ∀ v, v < n → (g.targetsOf v).length = g.degree v ∧ (g.timestampsOf v).length = g.degree v
  entries : ∀ v, v < n → (g.entriesOf v).Perm (inbound edges isDirected v)
  sorted : ∀ v, v < n → (g.timestampsOf v).Pairwise (· ≤ ·)
  candidates : ∀ v, v < n → ∀ tPrev,
    g.candidateSetLen v tPrev = (inbound edges isDirected v).countP fun e => e.1 < tPrev
  candidates_first : ∀ v, v < n → ∀ tPrev i e, (g.entriesOf v)[i]? = some e →
    (e.1 < tPrev ↔ i < g.candidateSetLen v tPrev)

namespace StoresInput

variable {g : TemporalGraph} {edges : List Edge} {n : Nat} {isDirected : Bool} (h : StoresInput g edges n isDirected)
  {v : Nat} (hv : v < n)

include h hv

theorem degree_eq : g.degree v = (inbound edges isDirected v).length := by
  obtain ⟨htargets, htimes⟩ := h.in_step v hv
  rw [← (h.entries v hv).length_eq, TemporalGraph.entriesOf, List.length_zip, htargets, htimes, Nat.min_self]

end StoresInput

/-! ### The adjacency lists -/

theorem entriesOf_ofAdj (adj : List (List Entry)) {v : Nat} (hv : v < adj.length) :
    (TemporalGraph.ofAdj adj).entriesOf v = adj[v] := by
  rw [TemporalGraph.entriesOf, TemporalGraph.timestampsOf_ofAdj adj hv, TemporalGraph.targetsOf_ofAdj adj hv,
    zip_entries]

@[simp] theorem length_adjacency (S : StdSort) (n : Nat) (cs : List Capture) :
    (adjacency S n cs).length = n := by
  simp [adjacency]

@[simp] theorem getElem_adjacency (S : StdSort) (n : Nat) (cs : List Capture) (v : Nat)
    (hv : v < (adjacency S n cs).length) : (adjacency S n cs)[v] = S.sort Prod.fst (arrivals cs v) := by
  simp [adjacency]

theorem adjacency_sorted (S : StdSort) (n : Nat) (cs : List Capture) :
    ∀ es ∈ adjacency S n cs, (es.map Prod.fst).Pairwise (· ≤ ·) := by
  intro es hes
  obtain ⟨v, -, rfl⟩ := List.mem_map.mp hes
  exact S.sort_sorted _ _

theorem arrivals_perm_inbound (edges : List Edge) (isDirected : Bool) (v : Nat) :
    (arrivals (edges.flatMap (captures isDirected)) v).Perm (inbound edges isDirected v) := by
  cases isDirected with
  | true =>
      refine List.Perm.of_eq ?_
      induction edges with
      | nil => rfl
      | cons e edges ih =>
          simp only [arrivals, capturesAt, inbound, captures, List.flatMap_cons, List.filter_append,
            List.map_append, if_true, List.append_nil] at ih ⊢
          rw [ih]
          by_cases hv : e.v = v <;> simp [hv]
  | false =>
      induction edges with
      | nil => rfl
      | cons e edges ih =>
          simp only [arrivals, capturesAt, inbound, captures, List.flatMap_cons, List.filter_append,
            List.map_append, Bool.false_eq_true, if_false, List.filter_cons, List.filter_nil] at ih ⊢
          refine (ih.append_left _).trans ?_
          -- the entry of the second side moves behind the first sides of the other edges
          by_cases hv : e.v = v <;> by_cases hu : e.u = v <;> simp [hv, hu, List.perm_middle.symm]

section build

variable {edges : List Edge} {isDirected : Bool} {n : Nat}

theorem Schedule.arrivals_perm (σ : Schedule edges isDirected) (v : Nat) :
    (arrivals σ.captured v).Perm (inbound edges isDirected v) :=
  ((σ.captured_perm.filter _).map _).trans (arrivals_perm_inbound edges isDirected v)

theorem length_captures (isDirected : Bool) (e : Edge) :
    (captures isDirected e).length = if isDirected then 1 else 2 := by
  cases isDirected <;> rfl

theorem Schedule.length_captured (σ : Schedule edges isDirected) :
    σ.captured.length = if isDirected then edges.length else 2 * edges.length := by
  rw [σ.captured_perm.length_eq, List.length_flatMap]
  simp only [length_captures]
  cases isDirected <;> simp [Nat.mul_comm]

theorem Schedule.length_adjacency_flatten (S : StdSort) (σ : Schedule edges isDirected)
    (hin : EndpointsIn edges n) :
    (adjacency S n σ.captured).flatten.length = if isDirected then edges.length else 2 * edges.length := by
  rw [List.length_flatten, map_length_adjacency, ← List.length_flatten,
    (captureBlocks_perm (σ.captured_in hin)).length_eq, σ.length_captured]

theorem ofAdj_storesInput (S : StdSort) (σ : Schedule edges isDirected) (hin : EndpointsIn edges n) :
    StoresInput (TemporalGraph.ofAdj (adjacency S n σ.captured)) edges n isDirected := by
  set adj := adjacency S n σ.captured with hadj
  have hlen : adj.length = n := length_adjacency S n σ.captured
  have hsorted : ∀ v (hv : v < adj.length), (adj[v].map Prod.fst).Pairwise (· ≤ ·) :=
    fun v hv => adjacency_sorted S n σ.captured _ (List.getElem_mem hv)
  have hperm : ∀ v (hv : v < adj.length), adj[v].Perm (inbound edges isDirected v) := by
    intro v hv
    rw [getElem_adjacency]
    exact (S.sort_perm _ _).trans (σ.arrivals_perm v)
  have hlast : (TemporalGraph.ofAdj adj).offsetOf n = adj.flatten.length := by
    rw [TemporalGraph.offsetOf_ofAdj adj hlen.ge, ← hlen, start_length]
  constructor
  case numVertices => exact hlen
  case offsets_length => simp [TemporalGraph.ofAdj, hlen]
  case offsets_first => rw [TemporalGraph.offsetOf_ofAdj adj (Nat.zero_le _), start_eq]; rfl
  case offsets_sorted =>
    rw [List.pairwise_iff_getElem]
    intro i j hi hj hij
    have hget : ∀ k (hk : k < (TemporalGraph.ofAdj adj).offsets.length),
        (TemporalGraph.ofAdj adj).offsets[k] = start adj k := by
      intro k hk
      rw [← TemporalGraph.offsetOf_ofAdj adj (by simpa [TemporalGraph.ofAdj, Nat.lt_succ_iff] using hk),
        TemporalGraph.offsetOf, List.getD_eq_getElem _ _ hk]
    rw [hget i hi, hget j hj]
    exact start_mono adj hij.le
  case offsets_last => rw [hlast, σ.length_adjacency_flatten S hin]
  case arenas_length => rw [hlast]; exact ⟨List.length_map _, List.length_map _⟩
  case in_step =>
    intro v hv
    have hv' : v < adj.length := by omega
    rw [TemporalGraph.targetsOf_ofAdj adj hv', TemporalGraph.timestampsOf_ofAdj adj hv',
      TemporalGraph.degree_ofAdj adj hv']
    simp
  case entries =>
    intro v hv
    rw [entriesOf_ofAdj adj (by omega)]
    exact hperm v (by omega)
  case sorted =>
    intro v hv
    rw [TemporalGraph.timestampsOf_ofAdj adj (by omega)]
    exact hsorted v (by omega)
  case candidates =>
    intro v hv tPrev
    have hv' : v < adj.length := by omega
    rw [TemporalGraph.candidateSetLen_ofAdj adj hv' (hsorted v hv'), (hperm v hv').countP_eq]
  case candidates_first =>
    intro v hv tPrev i e he
    have hv' : v < adj.length := by omega
    rw [entriesOf_ofAdj adj hv'] at he
    obtain ⟨hi, rfl⟩ := List.getElem?_eq_some_iff.mp he
    have := Search.lt_iff_lt_countP (hsorted v hv') tPrev i (by simpa using hi)
    rw [TemporalGraph.candidateSetLen_ofAdj adj hv' (hsorted v hv')]
    rw [List.getElem_map, List.countP_map] at this
    exact this

end build

/-! ### The largest id and the number of vertices -/

theorem foldl_max_ge (edges : List Edge) (m : Int) :
    m ≤ edges.foldl (fun m e => max (max m e.u) e.v) m ∧
      ∀ e ∈ edges, e.u ≤ edges.foldl (fun m e => max (max m e.u) e.v) m ∧
        e.v ≤ edges.foldl (fun m e => max (max m e.u) e.v) m := by
  induction edges generalizing m with
  | nil => simp
  | cons e es ih =>
      obtain ⟨hle, hall⟩ := ih (max (max m e.u) e.v)
      rw [List.foldl_cons]
      refine ⟨by omega, fun d hd => ?_⟩
      rcases List.mem_cons.mp hd with rfl | hd
      · omega
      · exact hall d hd

theorem foldl_max_le {edges : List Edge} {m bound : Int} (hm : m ≤ bound)
    (h : ∀ e ∈ edges, e.u ≤ bound ∧ e.v ≤ bound) : edges.foldl (fun m e => max (max m e.u) e.v) m ≤ bound := by
  induction edges generalizing m with
  | nil => exact hm
  | cons e es ih =>
      have he := h e (by simp)
      rw [List.foldl_cons]
      exact ih (by omega) fun d hd => h d (List.mem_cons_of_mem _ hd)

theorem maxId_bounds (edges : List Edge) :
    -1 ≤ maxId edges ∧ ∀ e ∈ edges, e.u ≤ maxId edges ∧ e.v ≤ maxId edges :=
  foldl_max_ge edges (-1)

/-- Where the endpoints are vertices, the number of vertices has not wrapped. -/
theorem vertexCountInt32_eq {edges : List Edge} {numVertices : Int}
    (hin : EndpointsIn edges (vertexCount edges numVertices)) :
    vertexCountInt32 edges numVertices = some (vertexCount edges numVertices : Int) := by
  unfold vertexCountInt32
  by_cases hneg : numVertices < 0
  · rw [if_pos hneg]
    obtain ⟨hlow, -⟩ := maxId_bounds edges
    have hcount : vertexCount edges numVertices = (toInt32 (maxId edges + 1)).toNat := if_pos hneg
    have hwrap := toInt32_isInt32 (maxId edges + 1)
    have hle : maxId edges ≤ max (-1) ((vertexCount edges numVertices : Int) - 1) := by
      refine foldl_max_le (le_max_left _ _) fun e he => ?_
      have := hin e he
      omega
    have hfits : IsInt32 (maxId edges + 1) := by
      unfold IsInt32 at hwrap ⊢
      omega
    rw [toInt32_of_isInt32 hfits] at hcount
    rw [Checked.add, Checked.fit_of_range hfits, Option.map_some, hcount]
    congr 1
    omega
  · have hcount : vertexCount edges numVertices = numVertices.toNat := if_neg hneg
    rw [if_neg hneg, hcount, Int.toNat_of_nonneg (by omega)]

section machine

variable (S : StdSort) (self : TemporalGraph) {edges : List Edge} {isDirected : Bool} (σ : Schedule edges isDirected)

theorem TemporalGraph.buildInt32_eq {numVertices : Int} (hin : EndpointsIn edges (vertexCount edges numVertices))
    (hn : vertexCount edges numVertices < 2 ^ 31 - 1) :
    TemporalGraph.buildInt32 S self edges numVertices isDirected σ =
      some (TemporalGraph.build S self edges numVertices isDirected σ) := by
  have hlt : vertexCount edges numVertices + 1 < 2 ^ 31 := by omega
  have hadd : Checked.add IsInt32 (vertexCount edges numVertices : Int) 1 =
      some ((vertexCount edges numVertices + 1 : Nat) : Int) :=
    Checked.add_natCast (isInt32_natCast hlt)
  rw [TemporalGraph.buildInt32, vertexCountInt32_eq hin, Option.bind_eq_bind, Option.bind_some, hadd]
  rfl

theorem TemporalGraph.buildInt32_eq_none {numVertices : Int} (hin : EndpointsIn edges (vertexCount edges numVertices))
    (hn : 2 ^ 31 - 1 ≤ vertexCount edges numVertices) :
    TemporalGraph.buildInt32 S self edges numVertices isDirected σ = none := by
  have hadd : Checked.add IsInt32 (vertexCount edges numVertices : Int) 1 = none := by
    refine Checked.add_of_not_range fun hfits => ?_
    obtain ⟨-, hlt⟩ : IsInt32 ((vertexCount edges numVertices : Int) + 1) := by exact_mod_cast hfits
    omega
  rw [TemporalGraph.buildInt32, vertexCountInt32_eq hin, Option.bind_eq_bind, Option.bind_some, hadd]
  rfl

end machine

/-! ### Every schedule stores the input -/

/-- The scatter loop writes every cell of the arenas once, so the arenas do not depend on the order in which the writes
land. -/
def ScattersOnce (g : TemporalGraph) (n : Nat) (captured : List Capture) : Prop :=
  let writes := scatterWrites g.offsets (List.replicate n 0) captured
  (writes.map Prod.fst).Perm (List.range (g.offsetOf n)) ∧
    ∀ (f : Capture → Int) (landed : List (Nat × Capture)), landed.Perm writes →
      writeAll (List.replicate (g.offsetOf n) 0) (landed.map fun w => (w.1, f w.2)) =
        writeAll (List.replicate (g.offsetOf n) 0) (writes.map fun w => (w.1, f w.2))

/-- The build loses and invents nothing, under any schedule. -/
theorem build_stores_input (S : StdSort) (self : TemporalGraph) {edges : List Edge} {numVertices : Int}
    {isDirected : Bool} (σ : Schedule edges isDirected) (hin : EndpointsIn edges (vertexCount edges numVertices)) :
    let n := vertexCount edges numVertices
    let g := TemporalGraph.build S self edges numVertices isDirected σ
    StoresInput g edges n isDirected ∧ ScattersOnce g n σ.captured := by
  intro n g
  have hcap := σ.captured_in hin
  have hg : g = TemporalGraph.ofAdj (adjacency S n σ.captured) := TemporalGraph.build_eq_ofAdj S self _ σ hin
  have hwrites : scatterWrites g.offsets (List.replicate n 0) σ.captured = scatter n σ.captured := by
    simp only [hg, TemporalGraph.ofAdj, map_length_adjacency, scatter]
  have hlast : g.offsetOf n = (captureBlocks n σ.captured).flatten.length := by
    rw [hg, TemporalGraph.offsetOf_ofAdj _ (by simp), start, map_length_adjacency, List.length_flatten,
      List.take_of_length_le (by simp)]
  have haddr := scatter_addresses hcap
  refine ⟨?_, ?_, fun f landed hlanded => ?_⟩
  · rw [hg]
    exact ofAdj_storesInput S σ hin
  · rw [hwrites, hlast]
    exact haddr
  · refine writeAll_perm _ (hlanded.map _) ?_
    rw [hwrites, List.map_map]
    exact haddr.nodup_iff.mpr List.nodup_range

/-- **Under any schedule the build stores the input exactly if the number of vertices is below the largest `int32_t`.**
Otherwise the length of the offsets overflows. -/
theorem build_stores_input_iff (S : StdSort) (self : TemporalGraph) (edges : List Edge) (numVertices : Int)
    (isDirected : Bool) (σ : Schedule edges isDirected) (hin : EndpointsIn edges (vertexCount edges numVertices)) :
    (∃ g, TemporalGraph.buildInt32 S self edges numVertices isDirected σ = some g ∧
        StoresInput g edges (vertexCount edges numVertices) isDirected ∧
        ScattersOnce g (vertexCount edges numVertices) σ.captured) ↔
      vertexCount edges numVertices < 2 ^ 31 - 1 := by
  constructor
  · rintro ⟨g, hg, -⟩
    by_contra hn
    rw [TemporalGraph.buildInt32_eq_none S self σ hin (by omega)] at hg
    cases hg
  · intro hn
    exact ⟨_, TemporalGraph.buildInt32_eq S self σ hin hn, build_stores_input S self σ hin⟩

/-- Two edges with one timestamp into vertex 1, a self-loop and an isolated vertex. -/
theorem build_stores_input_iff_example :
    let edges : List Edge := [⟨0, 1, 5⟩, ⟨2, 1, 5⟩, ⟨1, 1, 3⟩]
    ∃ g, TemporalGraph.buildInt32 StdSort.stable {} edges 4 false (Schedule.serial edges false) = some g ∧
      StoresInput g edges 4 false ∧ ScattersOnce g 4 (Schedule.serial edges false).captured :=
  (build_stores_input_iff StdSort.stable {} _ 4 false (Schedule.serial _ _) (by
    simp [EndpointsIn, vertexCount])).mpr (by decide)

/-- One edge and the largest `int32_t` as the number of vertices: both endpoints are vertices, and the length of the
offsets does not fit. -/
theorem build_overflows :
    EndpointsIn [⟨0, 1, 5⟩] (vertexCount [⟨0, 1, 5⟩] 2147483647) ∧
      TemporalGraph.buildInt32 StdSort.stable {} [⟨0, 1, 5⟩] 2147483647 true (Schedule.serial _ true) = none := by
  have hin : EndpointsIn [⟨0, 1, 5⟩] (vertexCount [⟨0, 1, 5⟩] 2147483647) := by
    simp [EndpointsIn, vertexCount]
  exact ⟨hin, TemporalGraph.buildInt32_eq_none StdSort.stable {} _ hin (by decide)⟩

/-! ### A graph for the examples -/

/-- A hundred edges into vertex 1, three into vertex 0 and none into vertex 2. -/
def hubEdges : List Edge := (List.range 100).map (fun i => ⟨0, 1, i⟩) ++ [⟨1, 0, 7⟩, ⟨2, 0, 7⟩, ⟨1, 0, 9⟩]

def hub : TemporalGraph := TemporalGraph.build StdSort.stable {} hubEdges 3 true (Schedule.serial hubEdges true)

theorem hub_eq : TemporalGraph.build StdSort.stable {} hubEdges 3 true (Schedule.serial hubEdges true) = hub := rfl

theorem endpointsIn_hubEdges : EndpointsIn hubEdges (vertexCount hubEdges 3) := by
  unfold EndpointsIn
  decide

theorem hub_storesInput : StoresInput hub hubEdges 3 true :=
  (build_stores_input StdSort.stable {} (Schedule.serial hubEdges true) endpointsIn_hubEdges).1

theorem degree_hub : hub.degree 0 = 3 ∧ hub.degree 1 = 100 ∧ hub.degree 2 = 0 := by
  refine ⟨?_, ?_, ?_⟩
  · rw [hub_storesInput.degree_eq (by decide)]
    decide
  · rw [hub_storesInput.degree_eq (by decide)]
    decide
  · rw [hub_storesInput.degree_eq (by decide)]
    decide

theorem candidateSetLen_hub : hub.candidateSetLen 1 95 = 95 := by
  rw [hub_storesInput.candidates 1 (by decide)]
  decide

end Tea
