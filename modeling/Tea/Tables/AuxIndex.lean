import Tea.Graph.Build
import Tea.Lib.ParallelFor
import Tea.Tables.Trunk
/-!
# The auxiliary index

`AuxIndex` stores the cover of every prefix of every non-solo vertex: `LOffsetArena` has one cell per vertex and
prefix length, `vertexLOffsetBase` says where a vertex' cells begin, and a cell holds where the cover begins in
`entries`. A cover ends where the next cell's cover begins, whichever vertex that cell belongs to.

The two levels are one: over all non-solo vertices in order, `LOffsetArena` is the scan of the cover lengths and
`entries` the concatenation of the covers (`build_eq`). That needs the counting pass (`popcount`) and the
filling pass (the length of the cover) to agree (`reserved_eq`).
-/

namespace Tea

open Layout

/-- `AuxIndex`: `active_`, `vertex_L_offset_base_`, `L_offset_arena_`, `entries_`. -/
structure AuxIndex where
  active : Bool := false
  vertexLOffsetBase : List Nat := []
  LOffsetArena : List Nat := []
  entries : List TrunkRef := []
deriving Repr, DecidableEq

namespace AuxIndex

/-- `is_solo && is_solo[u]`. -/
def soloAt (isSolo : Option (List Bool)) (u : Nat) : Bool := isSolo.any fun flags => flags.getD u false

/-- The cells of `L_offset_arena_` that vertex `u` gets. -/
def lCells (graph : TemporalGraph) (isSolo : Option (List Bool)) (u : Nat) : Nat :=
  if soloAt isSolo u then 0 else graph.degree u + 1

/-- The entries that the counting pass reserves for vertex `u`. -/
def reserved (graph : TemporalGraph) (isSolo : Option (List Bool)) (u : Nat) : Nat :=
  if soloAt isSolo u then 0 else ((List.range (graph.degree u)).map fun i => popcount (i + 1)).sum

/-- `bytes_needed`. -/
def bytesNeeded (n cumL cumE : Nat) : Nat := (n + 1) * 8 + (cumL + 1) * 8 + cumE * 8

/-- The arenas and the cursor `cur` while a vertex is filled. -/
structure Filling where
  arena : List Nat
  entries : List TrunkRef
  cur : Nat

/-- One iteration of the filling loop. -/
def fillCover (lBase : Nat) (k : Int) (s : Filling) (L : Nat) : Filling :=
  let arena := s.arena.set (lBase + L) s.cur
  if 0 < L then
    let cover := decomposeToTrunks L k
    ⟨arena, splice s.entries s.cur cover, s.cur + cover.length⟩
  else ⟨arena, s.entries, s.cur⟩

/-- The filling loop of vertex `u`. -/
def fillVertex (graph : TemporalGraph) (kMax : List Int) (base start : List Nat) (u : Nat) (s : Filling) :
    Filling :=
  (List.range (graph.degree u + 1)).foldl (fillCover (base.getD u 0) (kMax.getD u 0))
    { s with cur := start.getD u 0 }

/-- `AuxIndex::build` on the object `self`: the object and the value returned. -/
def build (self : AuxIndex) (graph : TemporalGraph) (kMax : List Int) (isSolo : Option (List Bool))
    (memoryBudgetBytes : Nat) (σ : ForSchedule graph.numVertices) : AuxIndex × Bool :=
  let vertices := List.range graph.numVertices
  let base := exclusiveScan 0 (vertices.map (lCells graph isSolo))
  let start := exclusiveScan 0 (vertices.map (reserved graph isSolo))
  let cumL := (vertices.map (lCells graph isSolo)).sum
  let cumE := (vertices.map (reserved graph isSolo)).sum
  if memoryBudgetBytes < bytesNeeded graph.numVertices cumL cumE then
    ({ self with active := false, vertexLOffsetBase := [], LOffsetArena := [], entries := [] }, false)
  else
    let filled := parallelFor
      (fun u _ s => ((), if soloAt isSolo u then s else fillVertex graph kMax base start u s)) σ.steps
      (fun _ => ()) ⟨List.replicate (cumL + 1) 0, List.replicate cumE ⟨0, 0⟩, 0⟩
    ({ self with
        active := true
        vertexLOffsetBase := base
        LOffsetArena := filled.arena.set cumL cumE
        entries := filled.entries }, true)

/-- `cover_for`. -/
def coverFor (self : AuxIndex) (u L : Nat) : List TrunkRef :=
  let base := self.vertexLOffsetBase.getD u 0
  let startE := self.LOffsetArena.getD (base + L) 0
  let endE := self.LOffsetArena.getD (base + L + 1) 0
  slice self.entries startE (endE - startE)

/-! ### What the index holds -/

section contents

variable (graph : TemporalGraph) (kMax : List Int) (isSolo : Option (List Bool))

/-- The covers of vertex `u`, one for every prefix length. -/
def covers (u : Nat) : List (List TrunkRef) :=
  if soloAt isSolo u then []
  else (List.range (graph.degree u + 1)).map fun L => decomposeToTrunks L (kMax.getD u 0)

/-- The covers of all vertices. -/
def allCovers : List (List TrunkRef) :=
  ((List.range graph.numVertices).map (covers graph kMax isSolo)).flatten

/-- The level of a non-solo vertex reaches its degree: `K_max[u]` is `⌊log₂ D⌋`, or `-1` if `D` is zero. -/
def LevelsReach : Prop :=
  ∀ u < graph.numVertices, soloAt isSolo u = false → graph.degree u < 2 ^ (kMax.getD u 0 + 1).toNat

variable {graph kMax isSolo}

theorem length_covers (u : Nat) : (covers graph kMax isSolo u).length = lCells graph isSolo u := by
  unfold covers lCells
  split_ifs <;> simp

/-- The counting pass reserves what the filling pass writes. -/
theorem reserved_eq (h : LevelsReach graph kMax isSolo) {u : Nat} (hu : u < graph.numVertices) :
    reserved graph isSolo u = (covers graph kMax isSolo u).flatten.length := by
  unfold reserved covers
  split_ifs with hsolo
  · rfl
  · have hreach := h u hu (Bool.eq_false_iff.mpr hsolo)
    rw [List.length_flatten, List.range_succ_eq_map]
    simp only [List.map_cons, List.map_map, decomposeToTrunks_zero, List.length_nil, List.sum_cons, Nat.zero_add]
    congr 1
    refine List.map_congr_left fun i hi => ?_
    rw [List.mem_range] at hi
    exact (length_cover (by omega)).symm

/-! ### The filling loop -/

theorem fillCover_eq (lBase : Nat) (k : Int) (s : Filling) (L : Nat) :
    fillCover lBase k s L = ⟨s.arena.set (lBase + L) s.cur, splice s.entries s.cur (decomposeToTrunks L k),
      s.cur + (decomposeToTrunks L k).length⟩ := by
  unfold fillCover
  dsimp only
  split_ifs with hL
  · rfl
  · obtain rfl : L = 0 := by omega
    simp [splice_nil]

theorem foldl_fillCover (lBase : Nat) (k : Int) (s : Filling) (m : Nat) (harena : lBase + m ≤ s.arena.length)
    (hentries : s.cur + ((List.range m).flatMap fun L => decomposeToTrunks L k).length ≤ s.entries.length) :
    (List.range m).foldl (fillCover lBase k) s =
      ⟨splice s.arena lBase ((List.range m).map fun L =>
          s.cur + ((List.range L).flatMap fun L => decomposeToTrunks L k).length),
        splice s.entries s.cur ((List.range m).flatMap fun L => decomposeToTrunks L k),
        s.cur + ((List.range m).flatMap fun L => decomposeToTrunks L k).length⟩ := by
  induction m with
  | zero => simp [splice_nil]
  | succ m ih =>
      rw [List.range_succ, List.flatMap_append, List.length_append, List.flatMap_singleton] at hentries
      rw [List.range_succ, List.foldl_append, ih (by omega) (by omega), List.foldl_cons, List.foldl_nil,
        fillCover_eq, List.map_append, List.map_singleton, List.flatMap_append, List.flatMap_singleton]
      dsimp only
      set prefixCovers := (List.range m).flatMap fun L => decomposeToTrunks L k
      have hlen : lBase + ((List.range m).map fun L =>
          s.cur + ((List.range L).flatMap fun L => decomposeToTrunks L k).length).length = lBase + m := by simp
      rw [splice_splice (by omega), ← hlen, set_splice_end (by rw [hlen]; exact harena), List.length_append,
        Nat.add_assoc]

/-! ### The whole build -/

section build

variable (h : LevelsReach graph kMax isSolo)

theorem base_eq (kMax : List Int) {u : Nat} (hu : u ≤ graph.numVertices) :
    (exclusiveScan 0 ((List.range graph.numVertices).map (lCells graph isSolo))).getD u 0 =
      start ((List.range graph.numVertices).map (covers graph kMax isSolo)) u := by
  rw [getD_exclusiveScan _ _ (by simpa using hu), start, List.map_map]
  congr 2
  exact List.map_congr_left fun u _ => (length_covers u).symm

include h in
theorem entriesStart_eq {u : Nat} (hu : u ≤ graph.numVertices) :
    (exclusiveScan 0 ((List.range graph.numVertices).map (reserved graph isSolo))).getD u 0 =
      start (((List.range graph.numVertices).map (covers graph kMax isSolo)).map List.flatten) u := by
  rw [getD_exclusiveScan _ _ (by simpa using hu), start, List.map_map, List.map_map]
  congr 2
  exact List.map_congr_left fun u hu => reserved_eq h (List.mem_range.mp hu)

include h in
theorem cumE_eq : ((List.range graph.numVertices).map (reserved graph isSolo)).sum =
    (allCovers graph kMax isSolo).flatten.length := by
  rw [allCovers, List.flatten_flatten, List.length_flatten, List.map_map, List.map_map]
  congr 1
  exact List.map_congr_left fun u hu => reserved_eq h (List.mem_range.mp hu)

theorem cumL_eq (kMax : List Int) : ((List.range graph.numVertices).map (lCells graph isSolo)).sum =
    (allCovers graph kMax isSolo).length := by
  rw [allCovers, List.length_flatten, List.map_map]
  congr 1
  exact List.map_congr_left fun u _ => (length_covers u).symm

/-- The cells of vertex `u`: where its covers begin. -/
def cellBlock (graph : TemporalGraph) (kMax : List Int) (isSolo : Option (List Bool)) (u : Nat) : List Nat :=
  (List.range (lCells graph isSolo u)).map fun L => start (allCovers graph kMax isSolo)
    (start ((List.range graph.numVertices).map (covers graph kMax isSolo)) u + L)

theorem fillVertex_eq {u : Nat} (hu : u < graph.numVertices) (hsolo : soloAt isSolo u = false)
    (base starts : List Nat) (s : Filling) (hstart : starts.getD u 0 =
      start (((List.range graph.numVertices).map (covers graph kMax isSolo)).map List.flatten) u)
    (harena : base.getD u 0 + lCells graph isSolo u ≤ s.arena.length)
    (hentries : starts.getD u 0 + (covers graph kMax isSolo u).flatten.length ≤ s.entries.length) :
    fillVertex graph kMax base starts u s =
      ⟨splice s.arena (base.getD u 0) (cellBlock graph kMax isSolo u),
        splice s.entries (starts.getD u 0) (covers graph kMax isSolo u).flatten,
        starts.getD u 0 + (covers graph kMax isSolo u).flatten.length⟩ := by
  have hcovers : covers graph kMax isSolo u =
      (List.range (graph.degree u + 1)).map fun L => decomposeToTrunks L (kMax.getD u 0) := by
    rw [covers, if_neg (by simp [hsolo])]
  have hcells : lCells graph isSolo u = graph.degree u + 1 := by
    rw [lCells, if_neg (by simp [hsolo])]
  have hflat : (covers graph kMax isSolo u).flatten =
      (List.range (graph.degree u + 1)).flatMap fun L => decomposeToTrunks L (kMax.getD u 0) := by
    rw [hcovers, List.flatMap_def]
  rw [hflat] at hentries ⊢
  rw [hcells] at harena
  unfold fillVertex
  rw [foldl_fillCover _ _ { s with cur := starts.getD u 0 } _ harena hentries]
  congr 2
  unfold cellBlock
  rw [hcells]
  refine List.map_congr_left fun L hL => ?_
  have hL' : L ≤ graph.degree u + 1 := (List.mem_range.mp hL).le
  have hlen : u < ((List.range graph.numVertices).map (covers graph kMax isSolo)).length := by simpa using hu
  have hblock : ((List.range graph.numVertices).map (covers graph kMax isSolo))[u] =
      covers graph kMax isSolo u := by simp
  have hflatten := start_flatten ((List.range graph.numVertices).map (covers graph kMax isSolo)) hlen (L := L)
    (by rw [hblock, length_covers, hcells]; exact hL')
  rw [allCovers, hflatten, ← hstart, hblock, start_eq, hcovers, ← List.map_take, List.take_range,
    Nat.min_eq_left hL', List.flatMap_def]

/-- The index that `build` leaves when the budget suffices. -/
def index (graph : TemporalGraph) (kMax : List Int) (isSolo : Option (List Bool)) : AuxIndex where
  active := true
  vertexLOffsetBase := exclusiveScan 0 ((List.range graph.numVertices).map (lCells graph isSolo))
  LOffsetArena := (List.range ((allCovers graph kMax isSolo).length + 1)).map
    (start (allCovers graph kMax isSolo))
  entries := (allCovers graph kMax isSolo).flatten

theorem map_length_cellBlocks :
    ((List.range graph.numVertices).map (cellBlock graph kMax isSolo)).map List.length =
      ((List.range graph.numVertices).map (covers graph kMax isSolo)).map List.length := by
  rw [List.map_map, List.map_map]
  refine List.map_congr_left fun u _ => ?_
  simp [cellBlock, length_covers]

theorem start_cellBlocks (u : Nat) :
    start ((List.range graph.numVertices).map (cellBlock graph kMax isSolo)) u =
      start ((List.range graph.numVertices).map (covers graph kMax isSolo)) u := by
  rw [start, map_length_cellBlocks, start]

theorem cellBlocks_flatten : ((List.range graph.numVertices).map (cellBlock graph kMax isSolo)).flatten =
    (List.range (allCovers graph kMax isSolo).length).map (start (allCovers graph kMax isSolo)) := by
  have htotal : ((List.range graph.numVertices).map (cellBlock graph kMax isSolo)).flatten.length =
      (allCovers graph kMax isSolo).length := by
    rw [List.length_flatten, map_length_cellBlocks, allCovers, List.length_flatten]
  apply List.ext_getElem?
  intro p
  by_cases hp : p < (allCovers graph kMax isSolo).length
  · obtain ⟨u, hu, j, hj, rfl⟩ := exists_block _ p (htotal.symm ▸ hp)
    rw [getElem?_flatten _ u j hu hj, List.getElem?_map, List.getElem?_range hp, start_cellBlocks]
    simp [cellBlock]
  · rw [List.getElem?_eq_none (by omega), List.getElem?_eq_none (by simpa using hp)]

/-- One iteration of the parallel loop. -/
def fillStep (graph : TemporalGraph) (kMax : List Int) (isSolo : Option (List Bool)) (base starts : List Nat)
    (u : Nat) (s : Filling) : Filling := if soloAt isSolo u then s else fillVertex graph kMax base starts u s

/-- The arenas have their final sizes. -/
def Sized (graph : TemporalGraph) (kMax : List Int) (isSolo : Option (List Bool)) (s : Filling) : Prop :=
  s.arena.length = (allCovers graph kMax isSolo).length + 1 ∧
    s.entries.length = (allCovers graph kMax isSolo).flatten.length

theorem fillStep_eq {u : Nat} (hu : u < graph.numVertices) {base starts : List Nat} {s : Filling}
    (hbase : base.getD u 0 = start ((List.range graph.numVertices).map (covers graph kMax isSolo)) u)
    (hstart : starts.getD u 0 =
      start (((List.range graph.numVertices).map (covers graph kMax isSolo)).map List.flatten) u)
    (hsized : Sized graph kMax isSolo s) :
    base.getD u 0 + (cellBlock graph kMax isSolo u).length ≤ (allCovers graph kMax isSolo).length ∧
    starts.getD u 0 + (covers graph kMax isSolo u).flatten.length ≤ s.entries.length ∧
    (fillStep graph kMax isSolo base starts u s).arena =
      splice s.arena (base.getD u 0) (cellBlock graph kMax isSolo u) ∧
    (fillStep graph kMax isSolo base starts u s).entries =
      splice s.entries (starts.getD u 0) (covers graph kMax isSolo u).flatten := by
  obtain ⟨harena, hentries⟩ := hsized
  have hcells : (cellBlock graph kMax isSolo u).length = lCells graph isSolo u := by simp [cellBlock]
  have hbound : base.getD u 0 + lCells graph isSolo u ≤ (allCovers graph kMax isSolo).length := by
    rw [hbase, ← length_covers]
    have h := start_add_length_le ((List.range graph.numVertices).map (covers graph kMax isSolo)) u
      (by simpa using hu)
    simpa [allCovers] using h
  have hbound' : starts.getD u 0 + (covers graph kMax isSolo u).flatten.length ≤ s.entries.length := by
    rw [hstart, hentries, allCovers, List.flatten_flatten]
    have h := start_add_length_le (((List.range graph.numVertices).map (covers graph kMax isSolo)).map List.flatten)
      u (by simpa using hu)
    simpa using h
  refine ⟨hcells ▸ hbound, hbound', ?_⟩
  unfold fillStep
  split_ifs with hsolo
  · have hnil : covers graph kMax isSolo u = [] := by rw [covers, if_pos hsolo]
    have hnil' : cellBlock graph kMax isSolo u = [] := by rw [cellBlock, lCells, if_pos hsolo]; rfl
    rw [hnil, hnil', List.flatten_nil, splice_nil, splice_nil]
    exact ⟨rfl, rfl⟩
  · rw [fillVertex_eq hu (Bool.eq_false_iff.mpr hsolo) base starts s hstart (by omega) hbound']
    exact ⟨rfl, rfl⟩

theorem filled_eq (σ : ForSchedule graph.numVertices) {base starts : List Nat}
    (hbase : ∀ u < graph.numVertices,
      base.getD u 0 = start ((List.range graph.numVertices).map (covers graph kMax isSolo)) u)
    (hstart : ∀ u < graph.numVertices, starts.getD u 0 =
      start (((List.range graph.numVertices).map (covers graph kMax isSolo)).map List.flatten) u)
    {s : Filling} (hsized : Sized graph kMax isSolo s) :
    let filled := parallelFor (fun u _ s => ((), fillStep graph kMax isSolo base starts u s)) σ.steps
      (fun _ => ()) s
    filled.arena.length = (allCovers graph kMax isSolo).length + 1 ∧
    filled.arena.take (allCovers graph kMax isSolo).length =
      (List.range (allCovers graph kMax isSolo).length).map (start (allCovers graph kMax isSolo)) ∧
    filled.entries = (allCovers graph kMax isSolo).flatten := by
  intro filled
  have hkeep : ∀ u (_ : Unit) s, u < graph.numVertices → Sized graph kMax isSolo s →
      Sized graph kMax isSolo (fillStep graph kMax isSolo base starts u s) := by
    intro u _ s hu hs
    obtain ⟨hb, hb', harena, hentries⟩ := fillStep_eq hu (hbase u hu) (hstart u hu) hs
    exact ⟨by rw [harena, length_splice (by rw [hs.1]; omega), hs.1],
      by rw [hentries, length_splice hb', hs.2]⟩
  let body := fun u (_ : Unit) s => ((), fillStep graph kMax isSolo base starts u s)
  have hfilled := parallelFor_inv body (Sized graph kMax isSolo) hkeep σ (fun _ => ()) s hsized
  refine ⟨hfilled.1, ?_, ?_⟩
  · have harena := parallelFor_blocks body (fun s => s.arena.take (allCovers graph kMax isSolo).length)
      (cellBlock graph kMax isSolo) (Sized graph kMax isSolo) (fun u _ s hu hs => by
        obtain ⟨hb, -, harena, -⟩ := fillStep_eq hu (hbase u hu) (hstart u hu) hs
        dsimp only [body]
        rw [harena, take_splice hb (by rw [hs.1]; exact Nat.le_succ _), start_cellBlocks, ← hbase u hu])
      hkeep σ (fun _ => ()) s hsized (by simp [cellBlocks_flatten, hsized.1])
    exact harena.trans cellBlocks_flatten
  · have hflatten : ((List.range graph.numVertices).map fun u => (covers graph kMax isSolo u).flatten).flatten =
        (allCovers graph kMax isSolo).flatten := by
      rw [allCovers, List.flatten_flatten, List.map_map]
      rfl
    have hentries := parallelFor_blocks body (fun s => s.entries)
      (fun u => (covers graph kMax isSolo u).flatten) (Sized graph kMax isSolo) (fun u _ s hu hs => by
        obtain ⟨-, -, -, hentries⟩ := fillStep_eq hu (hbase u hu) (hstart u hu) hs
        dsimp only [body]
        rw [hentries, hstart u hu, List.map_map]
        rfl)
      hkeep σ (fun _ => ()) s hsized (by rw [hsized.2, hflatten])
    exact hentries.trans hflatten

include h in
/-- **What the build does**: within the budget it leaves the index of all covers, over the budget an empty
inactive one, whatever the object held before and however the vertices are distributed. -/
theorem build_eq (self : AuxIndex) (memoryBudgetBytes : Nat) (σ : ForSchedule graph.numVertices) :
    self.build graph kMax isSolo memoryBudgetBytes σ =
      if memoryBudgetBytes < bytesNeeded graph.numVertices (allCovers graph kMax isSolo).length
          (allCovers graph kMax isSolo).flatten.length then ({}, false)
      else (index graph kMax isSolo, true) := by
  unfold build
  dsimp only
  rw [cumE_eq h, cumL_eq kMax]
  split_ifs with hbudget
  · rfl
  · obtain ⟨hlen, htake, hentries⟩ := filled_eq σ (fun u hu => base_eq kMax (Nat.le_of_lt hu))
      (fun u hu => entriesStart_eq h (Nat.le_of_lt hu))
      (s := ⟨List.replicate ((allCovers graph kMax isSolo).length + 1) 0,
        List.replicate (allCovers graph kMax isSolo).flatten.length ⟨0, 0⟩, 0⟩) (by simp [Sized])
    unfold fillStep at hlen htake hentries
    rw [hentries, set_last hlen, htake, index, List.range_succ, List.map_append, List.map_singleton, start_length]

/-- A lookup yields the cover, also where the next cell belongs to another vertex or is the last one. -/
theorem coverFor_index {u L : Nat} (hu : u < graph.numVertices) (hsolo : soloAt isSolo u = false)
    (hL : L ≤ graph.degree u) :
    (index graph kMax isSolo).coverFor u L = decomposeToTrunks L (kMax.getD u 0) := by
  set blocks := (List.range graph.numVertices).map (covers graph kMax isSolo) with hblocks
  have hlen : u < blocks.length := by simpa [hblocks] using hu
  have hblock : blocks[u] =
      (List.range (graph.degree u + 1)).map fun L => decomposeToTrunks L (kMax.getD u 0) := by
    simp [hblocks, covers, hsolo]
  have hLlt : L < blocks[u].length := by rw [hblock]; simpa using Nat.lt_succ_of_le hL
  have hcell : start blocks u + L < (allCovers graph kMax isSolo).length := by
    have h := start_add_length_le blocks u hlen
    rw [allCovers, ← hblocks]
    omega
  have hcover : (allCovers graph kMax isSolo)[start blocks u + L] = decomposeToTrunks L (kMax.getD u 0) := by
    have h := getElem?_flatten blocks u L hlen hLlt
    rw [List.getElem?_eq_getElem (show _ < blocks.flatten.length from hcell)] at h
    refine (Option.some.inj h).trans ?_
    simp [hblock]
  have hget : ∀ p ≤ (allCovers graph kMax isSolo).length,
      (index graph kMax isSolo).LOffsetArena.getD p 0 = start (allCovers graph kMax isSolo) p := by
    intro p hp
    simp [index, List.getD_eq_getElem?_getD, Nat.lt_succ_of_le hp]
  have hbase : (index graph kMax isSolo).vertexLOffsetBase.getD u 0 = start blocks u := base_eq kMax hu.le
  unfold coverFor
  dsimp only
  rw [hbase, hget _ hcell.le, hget _ hcell, start_succ _ _ hcell, Nat.add_sub_cancel_left, ← hcover]
  exact slice_flatten _ _ hcell

end build

end contents

end AuxIndex

end Tea
