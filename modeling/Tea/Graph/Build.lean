import Tea.Base.Types
import Tea.Lib.Checked
import Tea.Lib.Interleave
import Tea.Lib.Layout
import Tea.Lib.Search
import Tea.Lib.StdSort
/-!
# The temporal graph and its parallel build

`TemporalGraph` stores, for every vertex, its inbound edges sorted by time: a directed edge `(u, v, t)` is an
entry of `v` with target `u`, an undirected one is an entry of both endpoints. The entries of all vertices lie
in two flat arenas addressed through `offsets`.

`build` counts degrees, scans them, scatters the edges and sorts every vertex' slice. The first and third of
these are parallel loops over the edges with an atomic operation per stored entry. A `Schedule` fixes the
order in which the atomic operations of both loops happen: some interleaving of the threads' programs under
`schedule(static, 4096)`. The build is a function of the schedule, so a statement about every schedule is a
statement about every thread count and every interleaving.

The two additions that the build makes in `int32_t`, `max_id + 1` and the `n + 1` of the offsets' length, are checked in
`buildInt32`; it fails where one of them overflows and is `build`, whose sizes are natural numbers, everywhere else.
-/

namespace Tea

open Layout Search

/-- The graph: `n_`, `offsets_`, `targets_`, `timestamps_`. -/
structure TemporalGraph where
  n : Nat := 0
  offsets : List Nat := []
  targets : List Int := []
  timestamps : List Int := []
deriving Repr, DecidableEq

namespace TemporalGraph

/-! ### Accessors -/

def numVertices (g : TemporalGraph) : Nat := g.n

def numEdges (g : TemporalGraph) : Nat := g.offsets.getLastD 0

def offsetOf (g : TemporalGraph) (u : Nat) : Nat := g.offsets.getD u 0

def degree (g : TemporalGraph) (u : Nat) : Nat := g.offsets.getD (u + 1) 0 - g.offsets.getD u 0

def targetsOf (g : TemporalGraph) (u : Nat) : List Int := slice g.targets (g.offsetOf u) (g.degree u)

def timestampsOf (g : TemporalGraph) (u : Nat) : List Int :=
  slice g.timestamps (g.offsetOf u) (g.degree u)

/-- The number of entries of `u` before `tPrev`, by binary search. -/
def candidateSetLen (g : TemporalGraph) (u : Nat) (tPrev : Int) : Nat :=
  lowerBound (fun a b => decide (a < b)) (g.timestampsOf u) tPrev

end TemporalGraph

/-! ### The parallel loops -/

/-- One atomic capture of the scatter loop, with the entry it stores: `target` at time `ts`, at `vertex`. -/
structure Capture where
  vertex : Int
  target : Int
  ts : Int
deriving Repr, DecidableEq

/-- The degree increments of one iteration. -/
def increments (isDirected : Bool) (e : Edge) : List Int := if isDirected then [e.v] else [e.u, e.v]

/-- The cursor captures of one iteration: the side of `e.v`, and if undirected the side of `e.u` after it. -/
def captures (isDirected : Bool) (e : Edge) : List Capture :=
  ⟨e.v, e.u, e.t⟩ :: if isDirected then [] else [⟨e.u, e.v, e.t⟩]

/-- The chunk size of both loops. -/
def kScatterChunk : Nat := 4096

/-- An execution of the two parallel loops: how many threads there are, and in which order the atomic
increments and the atomic captures happen. -/
structure Schedule (edges : List Edge) (isDirected : Bool) where
  threads : Nat
  threads_pos : 0 < threads
  incremented : List Int
  captured : List Capture
  incremented_order :
    Interleaves (staticPrograms threads kScatterChunk (increments isDirected) edges) incremented
  captured_order :
    Interleaves (staticPrograms threads kScatterChunk (captures isDirected) edges) captured

namespace Schedule

variable {edges : List Edge} {isDirected : Bool}

theorem incremented_perm (σ : Schedule edges isDirected) :
    σ.incremented.Perm (edges.flatMap (increments isDirected)) :=
  σ.incremented_order.perm.trans (staticPrograms_perm _ _ σ.threads_pos _ _)

theorem captured_perm (σ : Schedule edges isDirected) :
    σ.captured.Perm (edges.flatMap (captures isDirected)) :=
  σ.captured_order.perm.trans (staticPrograms_perm _ _ σ.threads_pos _ _)

/-- The threads run one after another. -/
def sequential (edges : List Edge) (isDirected : Bool) (threads : Nat) (h : 0 < threads) :
    Schedule edges isDirected where
  threads := threads
  threads_pos := h
  incremented := (staticPrograms threads kScatterChunk (increments isDirected) edges).flatten
  captured := (staticPrograms threads kScatterChunk (captures isDirected) edges).flatten
  incremented_order := Interleaves.sequential _
  captured_order := Interleaves.sequential _

/-- One thread. -/
def serial (edges : List Edge) (isDirected : Bool) : Schedule edges isDirected :=
  sequential edges isDirected 1 Nat.one_pos

end Schedule

/-- The degree counters after the increments. -/
def countDegrees (n : Nat) (bumps : List Int) : List Nat :=
  bumps.foldl (fun degree v => degree.modify v.toNat (· + 1)) (List.replicate n 0)

/-- The writes of the scatter loop in the order of the captures: a capture takes the next free cell of its
vertex. -/
def scatterWrites (offsets : List Nat) : (cursor : List Nat) → List Capture → List (Nat × Capture)
  | _, [] => []
  | cursor, c :: cs =>
      (offsets.getD c.vertex.toNat 0 + cursor.getD c.vertex.toNat 0, c) ::
        scatterWrites offsets (cursor.modify c.vertex.toNat (· + 1)) cs

/-- Zip, sort and unzip the slice of vertex `u`; the arenas are the pair of timestamps and targets. -/
def sortVertex (S : StdSort) (offsets : List Nat) (arenas : List Int × List Int) (u : Nat) :
    List Int × List Int :=
  let lo := offsets.getD u 0
  let d := offsets.getD (u + 1) 0 - lo
  if d ≤ 1 then arenas
  else
    let zip := S.sort Prod.fst ((slice arenas.1 lo d).zip (slice arenas.2 lo d))
    (splice arenas.1 lo (zip.map Prod.fst), splice arenas.2 lo (zip.map Prod.snd))

/-- `max_id` over all endpoints, starting at `-1`. -/
def maxId (edges : List Edge) : Int := edges.foldl (fun m e => max (max m e.u) e.v) (-1)

/-- The number of vertices of the build: the argument, or if it is negative `max_id + 1` as an `int32_t`, at
least zero. -/
def vertexCount (edges : List Edge) (numVertices : Int) : Nat :=
  if numVertices < 0 then (toInt32 (maxId edges + 1)).toNat else numVertices.toNat

/-- `TemporalGraph::build` on the object `self`, with sizes that do not overflow. -/
def TemporalGraph.build (S : StdSort) (self : TemporalGraph) (edges : List Edge) (numVertices : Int)
    (isDirected : Bool) (σ : Schedule edges isDirected) : TemporalGraph :=
  let n := vertexCount edges numVertices
  if n = 0 then { self with n := n, offsets := [0], targets := [], timestamps := [] }
  else
    let degree := countDegrees n σ.incremented
    let offsets := exclusiveScan 0 degree
    let total := degree.sum
    let writes := scatterWrites offsets (List.replicate n 0) σ.captured
    let targets := writeAll (List.replicate total 0) (writes.map fun w => (w.1, w.2.target))
    let timestamps := writeAll (List.replicate total 0) (writes.map fun w => (w.1, w.2.ts))
    let sorted := (List.range n).foldl (sortVertex S offsets) (timestamps, targets)
    { self with n := n, offsets := offsets, targets := sorted.2, timestamps := sorted.1 }

/-- The number of vertices as the `int32_t` that the build computes. -/
def vertexCountInt32 (edges : List Edge) (numVertices : Int) : Option Int :=
  if numVertices < 0 then (Checked.add IsInt32 (maxId edges) 1).map (max 0) else some numVertices

/-- `TemporalGraph::build` with its `int32_t` additions; `none` if one of them overflows. -/
def TemporalGraph.buildInt32 (S : StdSort) (self : TemporalGraph) (edges : List Edge) (numVertices : Int)
    (isDirected : Bool) (σ : Schedule edges isDirected) : Option TemporalGraph := do
  let n ← vertexCountInt32 edges numVertices
  let _ ← Checked.add IsInt32 n 1
  return TemporalGraph.build S self edges numVertices isDirected σ

/-- Every endpoint of the input is a vertex id below `n`. -/
def EndpointsIn (edges : List Edge) (n : Nat) : Prop :=
  ∀ e ∈ edges, (0 ≤ e.u ∧ e.u < n) ∧ (0 ≤ e.v ∧ e.v < n)

end Tea
