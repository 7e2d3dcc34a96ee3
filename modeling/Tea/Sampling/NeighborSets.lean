import Tea.Graph.WellFormed
import Tea.Lib.ParallelFor
import Tea.Lib.Search
/-!
# Neighbor sets

`NeighborSets` stores for every vertex the sorted list of its neighbors, whatever the directions of the edges. For
a graph built from directed edges it first recovers the out-neighbors by a scatter over the stored edges, whose
atomic operations may happen in any order (`OutSchedule`). The sort erases that order: the build leaves the neighbor
lists of the graph, whatever the schedule and whatever the object held before (`NeighborSets.build_eq`).
-/

namespace Tea

open Layout Search

/-- `NeighborSets`: `neighbors_` and `offsets_`. -/
structure NeighborSets where
  neighbors : List Int := []
  offsets : List Nat := []
deriving Repr, DecidableEq

/-- The captures of the transpose pass: a stored entry of `v` with target `u` is an out-edge of `u` to `v`. -/
def outCaptures (graph : TemporalGraph) : List Capture :=
  (List.range graph.numVertices).flatMap fun v => (graph.targetsOf v).map fun u => ⟨u, v, 0⟩

/-- The order in which the atomic increments and captures of the transpose pass happen, and the schedule of
the copying loop. -/
structure OutSchedule (graph : TemporalGraph) where
  incremented : List Int
  captured : List Capture
  incremented_perm : incremented.Perm ((outCaptures graph).map Capture.vertex)
  captured_perm : captured.Perm (outCaptures graph)
  copy : ForSchedule graph.numVertices

/-- The passes in program order. -/
def OutSchedule.serial (graph : TemporalGraph) : OutSchedule graph where
  incremented := (outCaptures graph).map Capture.vertex
  captured := outCaptures graph
  incremented_perm := List.Perm.refl _
  captured_perm := List.Perm.refl _
  copy := ForSchedule.serial _

namespace NeighborSets

/-- The transpose pass: `out_offsets` and `out_neighbors_arena`. -/
def transpose (graph : TemporalGraph) (σ : OutSchedule graph) : List Nat × List Int :=
  let outDegree := countDegrees graph.numVertices σ.incremented
  let outOffsets := exclusiveScan 0 outDegree
  let writes := scatterWrites outOffsets (List.replicate graph.numVertices 0) σ.captured
  (outOffsets, writeAll (List.replicate outDegree.sum 0) (writes.map fun w => (w.1, w.2.target)))

/-- Gather the neighbors of `u`, sort them and drop duplicates. -/
def gather (graph : TemporalGraph) (inputWasDirected : Bool) (out : List Nat × List Int) (u : Nat) : List Int :=
  let scratch := graph.targetsOf u
  let scratch :=
    if inputWasDirected then
      let lo := out.1.getD u 0
      let hi := out.1.getD (u + 1) 0
      scratch ++ slice out.2 lo (hi - lo)
    else scratch
  (scratch.mergeSort fun a b => decide (a ≤ b)).eraseReps

/-- `NeighborSets::build` on the object `self`. -/
def build (self : NeighborSets) (graph : TemporalGraph) (inputWasDirected : Bool) (σ : OutSchedule graph) :
    NeighborSets :=
  let out := if inputWasDirected then transpose graph σ else ([], [])
  let sizes := (List.range graph.numVertices).map fun u => (gather graph inputWasDirected out u).length
  let offsets := exclusiveScan 0 sizes
  let neighbors := parallelFor
    (fun u _ cells =>
      ((), if sizes.getD u 0 = 0 then cells
        else splice cells (offsets.getD u 0) (gather graph inputWasDirected out u)))
    σ.copy.steps (fun _ => ()) (List.replicate sizes.sum 0)
  { self with neighbors := neighbors, offsets := offsets }

/-- `contains`. -/
def contains (self : NeighborSets) (u v : Int) : Bool :=
  let lo := self.offsets.getD u.toNat 0
  let hi := self.offsets.getD (u.toNat + 1) 0
  binarySearch (fun a b => decide (a < b)) (slice self.neighbors lo (hi - lo)) v

def degree (self : NeighborSets) (u : Nat) : Nat := self.offsets.getD (u + 1) 0 - self.offsets.getD u 0

/-! ### The stored lists -/

/-- The out-neighbors of `u`. -/
def outNeighborsOf (graph : TemporalGraph) (u : Nat) : List Int :=
  (capturesAt (outCaptures graph) u).map Capture.target

/-- The neighbors of `u`, sorted and without duplicates. -/
def neighborsOf (graph : TemporalGraph) (inputWasDirected : Bool) (u : Nat) : List Int :=
  ((graph.targetsOf u ++ if inputWasDirected then outNeighborsOf graph u else []).mergeSort
    fun a b => decide (a ≤ b)).eraseReps

/-- The stored form of the neighbor lists. -/
def ofGraph (graph : TemporalGraph) (inputWasDirected : Bool) : NeighborSets where
  neighbors := ((List.range graph.numVertices).map (neighborsOf graph inputWasDirected)).flatten
  offsets := exclusiveScan 0 (((List.range graph.numVertices).map (neighborsOf graph inputWasDirected)).map List.length)

theorem mergeSort_eq_of_perm {xs ys : List Int} (h : xs.Perm ys) :
    xs.mergeSort (fun a b => decide (a ≤ b)) = ys.mergeSort fun a b => decide (a ≤ b) := by
  have hsorted : ∀ zs : List Int, (zs.mergeSort fun a b => decide (a ≤ b)).Pairwise (· ≤ ·) := by
    intro zs
    have hpair : (zs.mergeSort fun a b => decide (a ≤ b)).Pairwise fun a b => decide (a ≤ b) = true :=
      List.pairwise_mergeSort (fun a b c hab hbc => by simp only [decide_eq_true_eq] at *; omega)
        (fun a b => by simp; omega) zs
    exact hpair.imp fun hab => by simpa using hab
  refine List.Perm.eq_of_pairwise (fun a b _ _ hab hba => le_antisymm hab hba) (hsorted xs) (hsorted ys) ?_
  exact ((List.mergeSort_perm xs _).trans h).trans (List.mergeSort_perm ys _).symm

theorem copy_eq {n : Nat} (σ : ForSchedule n) {lists lists' : Nat → List Int} (h : ∀ u < n, lists' u = lists u) :
    parallelFor (fun u _ cells => ((),
      if (((List.range n).map lists).map List.length).getD u 0 = 0 then cells
      else splice cells ((exclusiveScan 0 (((List.range n).map lists).map List.length)).getD u 0) (lists' u)))
      σ.steps (fun _ => ()) (List.replicate (((List.range n).map lists).map List.length).sum 0) =
      ((List.range n).map lists).flatten := by
  refine parallelFor_blocks _ (fun cells => cells) lists (fun _ => True) (fun u _ cells hu _ => ?_)
    (fun _ _ _ _ _ => trivial) σ _ _ trivial ?_
  · have hstart : (exclusiveScan 0 (((List.range n).map lists).map List.length)).getD u 0 =
        start ((List.range n).map lists) u := getD_exclusiveScan _ u (by simpa using hu.le)
    have hsize : (((List.range n).map lists).map List.length).getD u 0 = (lists u).length := by
      simp [List.getD_eq_getElem?_getD, hu]
    dsimp only
    rw [hstart, hsize, h u hu]
    split_ifs with hempty
    · rw [List.eq_nil_of_length_eq_zero hempty, splice_nil]
    · rfl
  · rw [List.length_replicate, List.length_flatten]

section build

variable {graph : TemporalGraph} (hg : graph.WellFormed)

include hg

theorem outCaptures_in : CapturesIn graph.numVertices (outCaptures graph) := by
  intro c hc
  obtain ⟨v, hv, hc⟩ := List.mem_flatMap.mp hc
  obtain ⟨x, hx, rfl⟩ := List.mem_map.mp hc
  exact hg.target_mem v (List.mem_range.mp hv) x hx

theorem transpose_eq (σ : OutSchedule graph) :
    transpose graph σ = (exclusiveScan 0 ((captureBlocks graph.numVertices σ.captured).map List.length),
      (captureBlocks graph.numVertices σ.captured).flatten.map Capture.target) := by
  have hin : CapturesIn graph.numVertices σ.captured :=
    fun c hc => outCaptures_in hg c (σ.captured_perm.mem_iff.mp hc)
  have hdeg := countDegrees_captures (σ.incremented_perm.trans (σ.captured_perm.map _).symm) hin
  unfold transpose
  dsimp only
  rw [hdeg]
  exact Prod.ext rfl (scatter_arena hin Capture.target _ List.length_flatten.symm)

theorem gather_eq (inputWasDirected : Bool) (σ : OutSchedule graph) {u : Nat} (hu : u < graph.numVertices) :
    gather graph inputWasDirected (if inputWasDirected then transpose graph σ else ([], [])) u =
      neighborsOf graph inputWasDirected u := by
  cases inputWasDirected with
  | false => simp [gather, neighborsOf]
  | true =>
      have hlen : u < (captureBlocks graph.numVertices σ.captured).length := by simpa using hu
      have hblock : (captureBlocks graph.numVertices σ.captured)[u] = capturesAt σ.captured u :=
        getElem_captureBlocks _ _ u hlen
      have hperm : ((capturesAt σ.captured u).map Capture.target).Perm (outNeighborsOf graph u) :=
        (σ.captured_perm.filter _).map _
      unfold gather neighborsOf
      simp only [if_true]
      rw [transpose_eq hg]
      generalize captureBlocks graph.numVertices σ.captured = blocks at hlen hblock ⊢
      have hlo : (exclusiveScan 0 (blocks.map List.length)).getD u 0 = start blocks u :=
        getD_exclusiveScan _ u (by simpa using hlen.le)
      have hhi : (exclusiveScan 0 (blocks.map List.length)).getD (u + 1) 0 = start blocks (u + 1) :=
        getD_exclusiveScan _ (u + 1) (by simpa using Nat.succ_le_of_lt hlen)
      have hslice : slice (blocks.flatten.map Capture.target) (start blocks u) blocks[u].length =
          (capturesAt σ.captured u).map Capture.target := by
        rw [← map_slice, slice_flatten _ u hlen, hblock]
      dsimp only
      rw [hlo, hhi, start_succ _ u hlen, Nat.add_sub_cancel_left, hslice, mergeSort_eq_of_perm (hperm.append_left _)]

/-- **What the build does**: it leaves the neighbor lists of the graph, whatever the object held before and in
whichever order the atomic operations of its loops happen. -/
theorem build_eq (self : NeighborSets) (inputWasDirected : Bool) (σ : OutSchedule graph) :
    self.build graph inputWasDirected σ = ofGraph graph inputWasDirected := by
  have hlists : ∀ u < graph.numVertices, gather graph inputWasDirected
      (if inputWasDirected then transpose graph σ else ([], [])) u = neighborsOf graph inputWasDirected u :=
    fun u hu => gather_eq hg inputWasDirected σ hu
  have hsizes : ((List.range graph.numVertices).map fun u => (gather graph inputWasDirected
      (if inputWasDirected then transpose graph σ else ([], [])) u).length) =
      ((List.range graph.numVertices).map (neighborsOf graph inputWasDirected)).map List.length := by
    rw [List.map_map]
    exact List.map_congr_left fun u hu => congrArg List.length (hlists u (List.mem_range.mp hu))
  unfold build
  dsimp only
  rw [hsizes]
  exact congrArg (NeighborSets.mk · _) (copy_eq σ.copy hlists)

end build

end NeighborSets

end Tea
