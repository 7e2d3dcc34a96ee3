import Mathlib.Algebra.Field.Rat
import Mathlib.Algebra.Order.Ring.Rat
import Tea.Lib.Regions
import Tea.Tables.Hpat
/-!
# The layout of the hierarchical tables

`build` walks the arenas with running cursors, the accessors compute offsets from sums over the levels, and the arenas
are sized by a third pair of sums. `trunkWrites` is the walk: the region and the cell that every iteration of the trunk
loops writes (`foldl_stampTrunk_writes`). It visits the places that the accessors compute (`trunkWrites_eq`), and the
walks of all vertices together tile the arenas (`tiles_tableRegions`, `tiles_totalRegions`).
-/

namespace Tea

open Layout Arith

namespace Hpat

/-! ### The walk -/

/-- What an iteration of the trunk loops writes: the region of the trunk's table and the cell of its total. -/
structure TrunkWrite where
  trunk : TrunkRef
  table : Region
  total : Region

/-- The writes of the trunk loops: both cursors start at zero and advance with every trunk. -/
def trunkWrites (aliasOff totalsOff : Nat) : (aliasCursor totalsCursor : Nat) → List TrunkRef → List TrunkWrite
  | _, _, [] => []
  | aliasCursor, totalsCursor, t :: ts =>
      ⟨t, ⟨aliasOff + aliasCursor, 1 <<< t.level⟩, ⟨totalsOff + totalsCursor, 1⟩⟩ ::
        trunkWrites aliasOff totalsOff (aliasCursor + (1 <<< t.level)) (totalsCursor + 1) ts

theorem trunkWrites_append (aliasOff totalsOff a c : Nat) (ts ts' : List TrunkRef) :
    trunkWrites aliasOff totalsOff a c (ts ++ ts') = trunkWrites aliasOff totalsOff a c ts ++
      trunkWrites aliasOff totalsOff (a + (ts.map fun t => 2 ^ t.level).sum) (c + ts.length) ts' := by
  induction ts generalizing a c with
  | nil => rfl
  | cons t ts ih =>
      rw [List.cons_append, trunkWrites, trunkWrites, ih, List.cons_append, Nat.one_shiftLeft, List.map_cons,
        List.sum_cons, List.length_cons, Nat.add_assoc a, Nat.add_assoc c, Nat.add_comm 1]

theorem map_trunk_trunkWrites (aliasOff totalsOff a c : Nat) (ts : List TrunkRef) :
    (trunkWrites aliasOff totalsOff a c ts).map TrunkWrite.trunk = ts := by
  induction ts generalizing a c with
  | nil => rfl
  | cons t ts ih => rw [trunkWrites, List.map_cons, ih]

theorem tiles_trunkWrites (aliasOff totalsOff a c : Nat) (ts : List TrunkRef) :
    Tiles (aliasOff + a) ((trunkWrites aliasOff totalsOff a c ts).map TrunkWrite.table)
        (aliasOff + (a + (ts.map fun t => 2 ^ t.level).sum)) ∧
      Tiles (totalsOff + c) ((trunkWrites aliasOff totalsOff a c ts).map TrunkWrite.total)
        (totalsOff + (c + ts.length)) := by
  induction ts generalizing a c with
  | nil => exact ⟨rfl, rfl⟩
  | cons t ts ih =>
      obtain ⟨htables, htotals⟩ := ih (a + 2 ^ t.level) (c + 1)
      rw [trunkWrites, Nat.one_shiftLeft, List.map_cons, List.map_cons, List.map_cons, List.sum_cons, List.length_cons]
      refine ⟨⟨rfl, ?_⟩, ⟨rfl, ?_⟩⟩
      · rwa [Nat.add_assoc a, ← Nat.add_assoc aliasOff a (2 ^ t.level)] at htables
      · rwa [Nat.add_assoc c, Nat.add_comm 1, ← Nat.add_assoc totalsOff c 1] at htotals

section steps

variable {R : Type} [Arith R]

/-- **The trunk loops perform these writes**, each with the table and the total of its trunk. -/
theorem foldl_stampTrunk_writes (ws : List R) (aliasOff totalsOff : Nat) (ts : List TrunkRef) (s : Stamping R)
    (hts : ∀ t ∈ ts, t.hi ≤ ws.length)
    (halias : aliasOff + s.aliasCursor + (ts.map fun t => 2 ^ t.level).sum ≤ s.aliasArena.length)
    (htotals : totalsOff + s.totalsCursor + ts.length ≤ s.trunkTotals.length) :
    (ts.foldl (stampTrunk ws aliasOff totalsOff) s).aliasArena =
        writeRegions s.aliasArena ((trunkWrites aliasOff totalsOff s.aliasCursor s.totalsCursor ts).map fun w =>
          (w.table, voseTable (trunkWeights ws w.trunk))) ∧
      (ts.foldl (stampTrunk ws aliasOff totalsOff) s).trunkTotals =
        writeRegions s.trunkTotals ((trunkWrites aliasOff totalsOff s.aliasCursor s.totalsCursor ts).map fun w =>
          (w.total, [Arith.sum (trunkWeights ws w.trunk)])) := by
  induction ts generalizing s with
  | nil => exact ⟨rfl, rfl⟩
  | cons t ts ih =>
      have ht : t.hi ≤ ws.length := hts t (by simp)
      rw [List.map_cons, List.sum_cons] at halias
      rw [List.length_cons] at htotals
      obtain ⟨scratch, hstep⟩ := stampTrunk_eq ws aliasOff totalsOff s t ht (by omega)
      have htable : (voseTable (trunkWeights ws t)).length = 2 ^ t.level := by
        rw [length_voseTable, length_trunkWeights ht]
      have hfit : aliasOff + s.aliasCursor + (voseTable (trunkWeights ws t)).length ≤ s.aliasArena.length := by omega
      have hset : s.trunkTotals.set (totalsOff + s.totalsCursor) (Arith.sum (trunkWeights ws t)) =
          splice s.trunkTotals (totalsOff + s.totalsCursor) [Arith.sum (trunkWeights ws t)] :=
        set_eq_splice (by omega) _
      obtain ⟨harena, htots⟩ := ih (stampTrunk ws aliasOff totalsOff s t)
        (fun t ht => hts t (List.mem_cons_of_mem _ ht)) (by rw [hstep]; dsimp only; rw [length_splice hfit]; omega)
        (by rw [hstep]; dsimp only; rw [List.length_set]; omega)
      rw [List.foldl_cons, harena, htots, hstep, trunkWrites, Nat.one_shiftLeft, List.map_cons, List.map_cons]
      dsimp only
      rw [hset]
      exact ⟨rfl, rfl⟩

end steps

/-! ### The places of the trunks -/

/-- Where the accessors look for trunk `t` of a vertex of degree `D`. -/
def placeOf (aliasOff totalsOff D : Nat) (t : TrunkRef) : TrunkWrite where
  trunk := t
  table := ⟨aliasOff + hpatAliasLevelOffset D t.level + t.index * (1 <<< t.level), 1 <<< t.level⟩
  total := ⟨totalsOff + hpatTotalsLevelOffset D t.level + t.index, 1⟩

/-- The trunks of the first `n` levels. -/
def firstLevels (D n : Nat) : List TrunkRef :=
  (List.range n).flatMap fun k => (List.range (D >>> k)).map fun i => ⟨k, i⟩

theorem levelTrunks_eq (D : Nat) (K : Int) : levelTrunks D K = firstLevels D (K + 1).toNat := rfl

theorem firstLevels_succ (D n : Nat) :
    firstLevels D (n + 1) = firstLevels D n ++ (List.range (D >>> n)).map fun i => ⟨n, i⟩ := by
  rw [firstLevels, List.range_succ, List.flatMap_append, List.flatMap_singleton]
  rfl

theorem hpatAliasLevelOffset_succ (D k : Nat) :
    hpatAliasLevelOffset D (k + 1) = hpatAliasLevelOffset D k + (D >>> k) <<< k := by
  rw [hpatAliasLevelOffset, List.range_succ, List.map_append, List.sum_append, List.map_singleton, List.sum_singleton]
  rfl

theorem hpatTotalsLevelOffset_succ (D k : Nat) :
    hpatTotalsLevelOffset D (k + 1) = hpatTotalsLevelOffset D k + D >>> k := by
  rw [hpatTotalsLevelOffset, List.range_succ, List.map_append, List.sum_append, List.map_singleton, List.sum_singleton]
  rfl

theorem sum_level (k m : Nat) :
    (((List.range m).map fun i => (⟨k, i⟩ : TrunkRef)).map fun t => 2 ^ t.level).sum = m * 2 ^ k := by
  rw [List.map_map]
  simp [Function.comp_def]

theorem firstLevels_cells (D n : Nat) :
    ((firstLevels D n).map fun t => 2 ^ t.level).sum = hpatAliasLevelOffset D n ∧
      (firstLevels D n).length = hpatTotalsLevelOffset D n := by
  induction n with
  | zero => exact ⟨rfl, rfl⟩
  | succ n ih =>
      rw [firstLevels_succ, List.map_append, List.sum_append, List.length_append, ih.1, ih.2, sum_level,
        hpatAliasLevelOffset_succ, hpatTotalsLevelOffset_succ, Nat.shiftLeft_eq]
      simp

theorem trunkWrites_level (aliasOff totalsOff D k m : Nat) :
    trunkWrites aliasOff totalsOff (hpatAliasLevelOffset D k) (hpatTotalsLevelOffset D k)
      ((List.range m).map fun i => ⟨k, i⟩) =
      ((List.range m).map fun i => (⟨k, i⟩ : TrunkRef)).map (placeOf aliasOff totalsOff D) := by
  induction m with
  | zero => rfl
  | succ m ih =>
      rw [List.range_succ, List.map_append, trunkWrites_append, ih, List.map_append, sum_level, List.length_map,
        List.length_range, List.map_singleton, List.map_singleton]
      simp only [trunkWrites, placeOf, Nat.one_shiftLeft, Nat.add_assoc]

/-- **The walk visits the places that the accessors compute.** -/
theorem trunkWrites_eq (aliasOff totalsOff D : Nat) (K : Int) :
    trunkWrites aliasOff totalsOff 0 0 (levelTrunks D K) =
      (levelTrunks D K).map (placeOf aliasOff totalsOff D) := by
  rw [levelTrunks_eq]
  induction (K + 1).toNat with
  | zero => rfl
  | succ n ih =>
      obtain ⟨hcells, hcount⟩ := firstLevels_cells D n
      rw [firstLevels_succ, trunkWrites_append, ih, hcells, hcount, Nat.zero_add, Nat.zero_add, trunkWrites_level,
        List.map_append]

/-! ### The writes of a vertex -/

section vertex

variable {R P : Type} [Arith R]

/-- The walk of vertex `u`, which is on the hierarchical path. -/
def walkOf (hpat : Hpat R P) (graph : TemporalGraph) (u : Nat) : List TrunkWrite :=
  trunkWrites (hpat.aliasOffsets.getD u 0) (hpat.totalsOffsets.getD u 0) 0 0
    (levelTrunks (graph.degree u) (hpat.kMax.getD u 0))

/-- What building vertex `u` writes into `alias_arena_`. -/
def tableWrites (hpat : Hpat R P) (graph : TemporalGraph) (bias : Bias R P) (u : Nat) :
    List (Region × List (AliasEntry R)) :=
  if graph.degree u = 0 then []
  else if hpat.isSolo.getD u false then
    [(⟨hpat.aliasOffsets.getD u 0, graph.degree u⟩, voseTable (vertexWeights graph bias u))]
  else (hpat.walkOf graph u).map fun w => (w.table, voseTable (trunkWeights (vertexWeights graph bias u) w.trunk))

/-- What building vertex `u` writes into `trunk_totals_`. -/
def totalWrites (hpat : Hpat R P) (graph : TemporalGraph) (bias : Bias R P) (u : Nat) : List (Region × List R) :=
  if graph.degree u = 0 then []
  else if hpat.isSolo.getD u false then []
  else (hpat.walkOf graph u).map fun w => (w.total, [Arith.sum (trunkWeights (vertexWeights graph bias u) w.trunk)])

variable {graph : TemporalGraph} {bias : Bias R P} {aux : AuxIndex} (hg : graph.WellFormed) {u : Nat}
  (hu : u < graph.numVertices)

theorem length_levelTrunks_cells {D : Nat} (hD : kHpatDegreeThreshold < D) :
    ((levelTrunks D (kMaxOfDegree D)).map fun t => 2 ^ t.level).sum = aliasCells D ∧
      (levelTrunks D (kMaxOfDegree D)).length = totalsCells D := by
  have hne : D ≠ 0 := by omega
  have hgt : ¬ D ≤ kHpatDegreeThreshold := by omega
  obtain ⟨hcells, hcount⟩ := firstLevels_cells D (D.log2 + 1)
  rw [levelTrunks_eq, levels_of_lt hD, hcells, hcount, aliasCells, totalsCells, if_neg hne, if_neg hgt, if_neg hne,
    if_neg hgt, hpatAliasEntriesPerVertex, hpatTrunksPerVertex, if_neg hne, if_neg hne]
  exact ⟨rfl, rfl⟩

theorem not_solo_of_lt {D : Nat} (hD : kHpatDegreeThreshold < D) : soloOfDegree D = false := by
  simp [soloOfDegree, hD]

theorem solo_of_le {D : Nat} (hpos : 0 < D) (hD : D ≤ kHpatDegreeThreshold) : soloOfDegree D = true := by
  simp [soloOfDegree, hpos, hD]

include hg hu in
/-- **Building a vertex performs these writes and no other.** -/
theorem buildVertex_writes {hpat : Hpat R P} (hs : Sized graph bias aux hpat) (scratch : BuildScratch R) :
    (buildVertex graph bias u scratch hpat).2.aliasArena =
        writeRegions hpat.aliasArena (hpat.tableWrites graph bias u) ∧
      (buildVertex graph bias u scratch hpat).2.trunkTotals =
        writeRegions hpat.trunkTotals (hpat.totalWrites graph bias u) := by
  obtain ⟨halias, htotals⟩ := blocks_le hg hu hs
  obtain ⟨hK, hsolo⟩ := hs.path hu
  have hws : (vertexWeights graph bias u).length = graph.degree u := length_vertexWeights hg hu
  rw [length_aliasBlock hg hu] at halias
  rw [length_totalsBlock hg hu] at htotals
  unfold buildVertex tableWrites totalWrites walkOf
  dsimp only
  rw [computeWeights_vertex hg hu, hsolo, hK]
  rcases Nat.eq_zero_or_pos (graph.degree u) with hD | hD
  · rw [if_pos hD, if_pos hD, if_pos hD]
    exact ⟨rfl, rfl⟩
  rw [if_neg hD.ne', if_neg hD.ne', if_neg hD.ne']
  by_cases hthreshold : graph.degree u ≤ kHpatDegreeThreshold
  · have hflag := solo_of_le hD hthreshold
    rw [aliasCells, if_neg hD.ne', if_pos hthreshold] at halias
    rw [if_pos hflag, if_pos hflag, if_pos hflag]
    dsimp only
    rw [buildAliasInto_eq (by rw [length_slice halias, hws])]
    exact ⟨rfl, rfl⟩
  · have hgt : kHpatDegreeThreshold < graph.degree u := by omega
    have hflag : ¬ soloOfDegree (graph.degree u) = true := by simp [not_solo_of_lt hgt]
    obtain ⟨hcells, hcount⟩ := length_levelTrunks_cells hgt
    rw [if_neg hflag, if_neg hflag, if_neg hflag]
    refine foldl_stampTrunk_writes (vertexWeights graph bias u) _ _ _
      ⟨hpat.aliasArena, hpat.trunkTotals, 0, 0, scratch.aliasScratch⟩ (fun t ht => ?_) ?_ ?_
    · rw [hws]
      exact (mem_levelTrunks ht).2.2
    · rwa [hcells]
    · rwa [hcount]

theorem sized_withArenas {aliasArena : List (AliasEntry R)} {trunkTotals : List R}
    (halias : aliasArena.length = (tables graph bias aux).aliasArena.length)
    (htotals : trunkTotals.length = (tables graph bias aux).trunkTotals.length) :
    Sized graph bias aux { tables graph bias aux with aliasArena := aliasArena, trunkTotals := trunkTotals } := by
  refine ⟨⟨rfl, rfl, rfl, rfl, rfl⟩, halias, htotals, by simp [tables], fun u hu hD => ?_⟩
  simp [tables, hu, vertexParams, hD]

/-! ### All vertices together -/

include hu in
theorem tableWrites_tables : (tables graph bias aux).tableWrites graph bias u =
    if graph.degree u = 0 then []
    else if soloOfDegree (graph.degree u) then
      [(⟨(tables graph bias aux).aliasOffsets.getD u 0, graph.degree u⟩, voseTable (vertexWeights graph bias u))]
    else ((tables graph bias aux).walkOf graph u).map fun w =>
      (w.table, voseTable (trunkWeights (vertexWeights graph bias u) w.trunk)) := by
  have hsolo : (tables graph bias aux).isSolo.getD u false = soloOfDegree (graph.degree u) := isSoloAt_tables hu
  rw [tableWrites, hsolo]

include hu in
theorem totalWrites_tables : (tables graph bias aux).totalWrites graph bias u =
    if graph.degree u = 0 then []
    else if soloOfDegree (graph.degree u) then []
    else ((tables graph bias aux).walkOf graph u).map fun w =>
      (w.total, [Arith.sum (trunkWeights (vertexWeights graph bias u) w.trunk)]) := by
  have hsolo : (tables graph bias aux).isSolo.getD u false = soloOfDegree (graph.degree u) := isSoloAt_tables hu
  rw [totalWrites, hsolo]

include hu in
theorem walkOf_tables : (tables graph bias aux).walkOf graph u =
    trunkWrites ((tables graph bias aux).aliasOffsets.getD u 0) ((tables graph bias aux).totalsOffsets.getD u 0) 0 0
      (levelTrunks (graph.degree u) (kMaxOfDegree (graph.degree u))) := by
  have hK : (tables graph bias aux).kMax.getD u 0 = kMaxOfDegree (graph.degree u) := kMaxOf_tables hu
  rw [walkOf, hK]

variable (bias aux) in
include hu in
theorem walkOf_hierarchical (hD : kHpatDegreeThreshold < graph.degree u) :
    Tiles ((tables graph bias aux).aliasOffsets.getD u 0) (((tables graph bias aux).walkOf graph u).map TrunkWrite.table)
        ((tables graph bias aux).aliasOffsets.getD u 0 + aliasCells (graph.degree u)) ∧
      Tiles ((tables graph bias aux).totalsOffsets.getD u 0)
        (((tables graph bias aux).walkOf graph u).map TrunkWrite.total)
        ((tables graph bias aux).totalsOffsets.getD u 0 + totalsCells (graph.degree u)) ∧
      ((tables graph bias aux).walkOf graph u).map TrunkWrite.trunk =
        levelTrunks (graph.degree u) (kMaxOfDegree (graph.degree u)) := by
  obtain ⟨hcells, hcount⟩ := length_levelTrunks_cells hD
  obtain ⟨htables, htotals⟩ := tiles_trunkWrites ((tables graph bias aux).aliasOffsets.getD u 0)
    ((tables graph bias aux).totalsOffsets.getD u 0) 0 0 (levelTrunks (graph.degree u) (kMaxOfDegree (graph.degree u)))
  rw [hcells, Nat.zero_add, Nat.add_zero] at htables
  rw [hcount, Nat.zero_add, Nat.add_zero] at htotals
  rw [walkOf_tables hu]
  exact ⟨htables, htotals, map_trunk_trunkWrites _ _ _ _ _⟩

theorem mem_walk_len {aliasOff totalsOff a c : Nat} {ts : List TrunkRef} {w : TrunkWrite}
    (hw : w ∈ trunkWrites aliasOff totalsOff a c ts) : w.trunk ∈ ts ∧ w.table.len = 2 ^ w.trunk.level ∧ w.total.len = 1 := by
  induction ts generalizing a c with
  | nil => simp [trunkWrites] at hw
  | cons t ts ih =>
      rw [trunkWrites] at hw
      rcases List.mem_cons.mp hw with rfl | hw
      · exact ⟨by simp, Nat.one_shiftLeft _, rfl⟩
      · obtain ⟨hmem, hlens⟩ := ih hw
        exact ⟨List.mem_cons_of_mem _ hmem, hlens⟩

include hg hu in
theorem tableWrites_fill : FillsBlock ((tables graph bias aux).aliasOffsets.getD u 0)
    ((tables graph bias aux).tableWrites graph bias u) (aliasBlock graph bias u) := by
  have hws : (vertexWeights graph bias u).length = graph.degree u := length_vertexWeights hg hu
  have hlen : (aliasBlock graph bias u).length = _ := length_aliasBlock hg hu
  rw [tableWrites_tables hu]
  rcases Nat.eq_zero_or_pos (graph.degree u) with hD | hD
  · have hcells : aliasCells (graph.degree u) = 0 := if_pos hD
    rw [hcells] at hlen
    rw [if_pos hD, List.eq_nil_of_length_eq_zero hlen]
    exact FillsBlock.nil _
  rw [if_neg hD.ne']
  by_cases hthreshold : graph.degree u ≤ kHpatDegreeThreshold
  · have htable : (voseTable (vertexWeights graph bias u)).length = graph.degree u := by rw [length_voseTable, hws]
    rw [if_pos (solo_of_le hD hthreshold), aliasBlock, if_pos hthreshold, ← htable]
    exact FillsBlock.single _ _
  · have hgt : kHpatDegreeThreshold < graph.degree u := by omega
    obtain ⟨htiles, -, htrunks⟩ := walkOf_hierarchical bias aux hu hgt
    rw [if_neg (by simp [not_solo_of_lt hgt])]
    refine ⟨?_, ?_, ?_⟩
    · rwa [hlen, List.map_map]
    · intro w hw
      obtain ⟨v, hv, rfl⟩ := List.mem_map.mp hw
      rw [walkOf_tables hu] at hv
      obtain ⟨htrunk, hlen, -⟩ := mem_walk_len hv
      have hhi : v.trunk.hi ≤ (vertexWeights graph bias u).length := by
        rw [hws]
        exact (mem_levelTrunks htrunk).2.2
      rw [length_voseTable, length_trunkWeights hhi, hlen]
    · rw [aliasBlock, if_neg hthreshold, flatten_levelTables, hws, List.map_map]
      conv_rhs => rw [← htrunks, List.map_map]
      rfl

include hg hu in
theorem totalWrites_fill : FillsBlock ((tables graph bias aux).totalsOffsets.getD u 0)
    ((tables graph bias aux).totalWrites graph bias u) (totalsBlock graph bias u) := by
  have hws : (vertexWeights graph bias u).length = graph.degree u := length_vertexWeights hg hu
  have hlen : (totalsBlock graph bias u).length = _ := length_totalsBlock hg hu
  rw [totalWrites_tables hu]
  rcases Nat.eq_zero_or_pos (graph.degree u) with hD | hD
  · have hle : graph.degree u ≤ kHpatDegreeThreshold := hD ▸ Nat.zero_le _
    rw [if_pos hD, totalsBlock, if_pos hle]
    exact FillsBlock.nil _
  rw [if_neg hD.ne']
  by_cases hthreshold : graph.degree u ≤ kHpatDegreeThreshold
  · rw [if_pos (solo_of_le hD hthreshold), totalsBlock, if_pos hthreshold]
    exact FillsBlock.nil _
  · have hgt : kHpatDegreeThreshold < graph.degree u := by omega
    obtain ⟨-, htiles, htrunks⟩ := walkOf_hierarchical bias aux hu hgt
    rw [if_neg (by simp [not_solo_of_lt hgt])]
    refine ⟨?_, ?_, ?_⟩
    · rwa [hlen, List.map_map]
    · intro w hw
      obtain ⟨v, hv, rfl⟩ := List.mem_map.mp hw
      rw [walkOf_tables hu] at hv
      exact (mem_walk_len hv).2.2.symm
    · rw [totalsBlock, if_neg hthreshold, flatten_levelTotals, hws, List.map_map]
      conv_rhs => rw [← htrunks, List.map_map, List.map_eq_flatMap, List.flatMap_def]
      rfl

/-! ### The layout -/

/-- A solo vertex: one region of its degree, no totals, and the view of that region is the table of all its weights. -/
structure SoloLayout (hpat : Hpat R P) (graph : TemporalGraph) (bias : Bias R P) (u : Nat) : Prop where
  regions : (hpat.tableWrites graph bias u).map Prod.fst = [⟨hpat.aliasOffsets.getD u 0, graph.degree u⟩]
  totals : hpat.totalWrites graph bias u = []
  view : hpat.soloAliasView graph u = voseTable (vertexWeights graph bias u)

/-- A hierarchical vertex: the walk visits the trunks of all levels, and the accessors of a trunk read what the walk
wrote for it. -/
structure LevelLayout (hpat : Hpat R P) (graph : TemporalGraph) (bias : Bias R P) (u : Nat) : Prop where
  kMax : hpat.kMaxOf u = (graph.degree u).log2
  regions : (hpat.tableWrites graph bias u).map Prod.fst = (hpat.walkOf graph u).map TrunkWrite.table
  totals : (hpat.totalWrites graph bias u).map Prod.fst = (hpat.walkOf graph u).map TrunkWrite.total
  trunks : (hpat.walkOf graph u).map TrunkWrite.trunk = levelTrunks (graph.degree u) (graph.degree u).log2
  table : ∀ k i : Nat, (k : Int) ≤ hpat.kMaxOf u → i < graph.degree u >>> k →
    ∃ w ∈ hpat.walkOf graph u, w.trunk = ⟨k, i⟩ ∧ w.table.len = 2 ^ k ∧
      hpat.aliasViewOfTrunk graph u k i = slice hpat.aliasArena w.table.off w.table.len ∧
      hpat.aliasViewOfTrunk graph u k i = voseTable (slice (vertexWeights graph bias u) (i * 2 ^ k) (2 ^ k)) ∧
      hpat.trunkTotalOf graph u k i = hpat.trunkTotals.getD w.total.off 0 ∧
      hpat.trunkTotalOf graph u k i = Arith.sum (slice (vertexWeights graph bias u) (i * 2 ^ k) (2 ^ k))

include hg hu in
theorem soloLayout_tables (hsolo : soloOfDegree (graph.degree u) = true) :
    SoloLayout (tables graph bias aux) graph bias u := by
  have hD : graph.degree u ≠ 0 := by
    have h : 0 < graph.degree u ∧ graph.degree u ≤ kHpatDegreeThreshold := by simpa [soloOfDegree] using hsolo
    exact h.1.ne'
  refine ⟨?_, ?_, soloAliasView_tables hg hu hsolo⟩
  · rw [tableWrites_tables hu, if_neg hD, if_pos hsolo]
    rfl
  · rw [totalWrites_tables hu, if_neg hD, if_pos hsolo]

include hg hu in
theorem levelLayout_tables (hD : kHpatDegreeThreshold < graph.degree u) :
    LevelLayout (tables graph bias aux) graph bias u := by
  have hne : graph.degree u ≠ 0 := by omega
  have hflag : ¬ soloOfDegree (graph.degree u) = true := by simp [not_solo_of_lt hD]
  have hK : (tables graph bias aux).kMaxOf u = (graph.degree u).log2 := by rw [kMaxOf_tables hu, kMaxOfDegree_of_lt hD]
  have hwalk : (tables graph bias aux).walkOf graph u = _ := walkOf_tables hu
  refine ⟨hK, ?_, ?_, ?_, fun k i hk hi => ?_⟩
  · rw [tableWrites_tables hu, if_neg hne, if_neg hflag, List.map_map]
    rfl
  · rw [totalWrites_tables hu, if_neg hne, if_neg hflag, List.map_map]
    rfl
  · rw [(walkOf_hierarchical bias aux hu hD).2.2, kMaxOfDegree_of_lt hD]
  · have hk' : k ≤ (graph.degree u).log2 := by
      rw [hK] at hk
      exact_mod_cast hk
    have hmem : (⟨k, i⟩ : TrunkRef) ∈ levelTrunks (graph.degree u) (kMaxOfDegree (graph.degree u)) := by
      refine List.mem_flatMap.mpr ⟨k, ?_, List.mem_map.mpr ⟨i, List.mem_range.mpr hi, rfl⟩⟩
      rw [List.mem_range, levels_of_lt hD]
      omega
    refine ⟨placeOf ((tables graph bias aux).aliasOffsets.getD u 0) ((tables graph bias aux).totalsOffsets.getD u 0)
      (graph.degree u) ⟨k, i⟩, ?_, rfl, Nat.one_shiftLeft k, rfl, aliasViewOfTrunk_tables hg hu hD hk' hi, rfl,
      trunkTotalOf_tables hg hu hD hk' hi⟩
    rw [hwalk, trunkWrites_eq]
    exact List.mem_map_of_mem hmem

include hg in
/-- The walks of all vertices fill the arenas, and may be performed vertex by vertex in any order. -/
theorem tables_filled : let hpat := tables graph bias aux
    Fills ((List.range graph.numVertices).flatMap fun u => (hpat.tableWrites graph bias u).map Prod.fst)
        hpat.aliasArena.length ∧
      Fills ((List.range graph.numVertices).flatMap fun u => (hpat.totalWrites graph bias u).map Prod.fst)
        hpat.trunkTotals.length ∧
      ∀ order : List Nat, order.Perm (List.range graph.numVertices) →
        writeRegions (List.replicate hpat.aliasArena.length ⟨0, 0⟩) (order.flatMap (hpat.tableWrites graph bias)) =
            hpat.aliasArena ∧
          writeRegions (List.replicate hpat.trunkTotals.length 0) (order.flatMap (hpat.totalWrites graph bias)) =
            hpat.trunkTotals := by
  intro hpat
  have halias := fills_of_blocks graph.numVertices (aliasBlock graph bias) fun u hu => by
    rw [start_aliasBlocks hg aux hu.le]
    exact tableWrites_fill hg hu
  have htotals := fills_of_blocks graph.numVertices (totalsBlock graph bias) fun u hu => by
    rw [start_totalsBlocks hg aux hu.le]
    exact totalWrites_fill hg hu
  exact ⟨halias.1, htotals.1, fun order horder => ⟨halias.2 order horder _ List.length_replicate,
    htotals.2 order horder _ List.length_replicate⟩⟩

end vertex

/-- **The layout of the arenas**, for every built graph, bias and schedule: the regions that the build writes fill the
arenas without overlap, building a vertex writes its regions whatever the arenas hold, and the accessors of a vertex read
the regions that were written for them. -/
theorem build_levels_layout {R P : Type} [Arith R] (S : StdSort) (self : TemporalGraph) {edges : List Edge}
    {numVertices : Int} {isDirected : Bool} (σ : Schedule edges isDirected)
    (hin : EndpointsIn edges (vertexCount edges numVertices)) (old : Hpat R P) (bias : Bias R P)
    (auxBudgetBytes : Nat) :
    let graph := TemporalGraph.build S self edges numVertices isDirected σ
    ∀ τ τ' : ForSchedule graph.numVertices,
      let hpat := old.build graph bias auxBudgetBytes τ τ'
      Fills ((List.range graph.numVertices).flatMap fun u => (hpat.tableWrites graph bias u).map Prod.fst)
        hpat.aliasArena.length ∧
      Fills ((List.range graph.numVertices).flatMap fun u => (hpat.totalWrites graph bias u).map Prod.fst)
        hpat.trunkTotals.length ∧
      (∀ order : List Nat, order.Perm (List.range graph.numVertices) →
        writeRegions (List.replicate hpat.aliasArena.length ⟨0, 0⟩) (order.flatMap (hpat.tableWrites graph bias)) =
            hpat.aliasArena ∧
          writeRegions (List.replicate hpat.trunkTotals.length 0) (order.flatMap (hpat.totalWrites graph bias)) =
            hpat.trunkTotals) ∧
      (∀ u < graph.numVertices, ∀ (scratch : BuildScratch R) (aliasArena : List (AliasEntry R)) (trunkTotals : List R),
        aliasArena.length = hpat.aliasArena.length → trunkTotals.length = hpat.trunkTotals.length →
        let built := (buildVertex graph bias u scratch
          { hpat with aliasArena := aliasArena, trunkTotals := trunkTotals }).2
        built.aliasArena = writeRegions aliasArena (hpat.tableWrites graph bias u) ∧
          built.trunkTotals = writeRegions trunkTotals (hpat.totalWrites graph bias u)) ∧
      ∀ u < graph.numVertices,
        (graph.degree u = 0 → hpat.tableWrites graph bias u = [] ∧ hpat.totalWrites graph bias u = []) ∧
        (0 < graph.degree u → graph.degree u ≤ kHpatDegreeThreshold →
          hpat.isSoloAt u = true ∧ SoloLayout hpat graph bias u) ∧
        (kHpatDegreeThreshold < graph.degree u → hpat.isSoloAt u = false ∧ LevelLayout hpat graph bias u) := by
  intro graph τ τ' hpat
  have hg : graph.WellFormed := TemporalGraph.build_wellFormed S self σ hin
  have hhpat : hpat = tables graph bias (if 0 < auxBudgetBytes then auxOf graph auxBudgetBytes else old.auxIndex) :=
    build_eq hg old auxBudgetBytes τ τ'
  rw [hhpat]
  obtain ⟨htables, htotals, hwrites⟩ := tables_filled (R := R) hg
  refine ⟨htables, htotals, hwrites, fun u hu scratch aliasArena trunkTotals halias htotals => ?_,
    fun u hu => ⟨fun hD => ?_, fun hpos hD => ?_, fun hD => ?_⟩⟩
  · exact buildVertex_writes hg hu (sized_withArenas halias htotals) scratch
  · rw [tableWrites, totalWrites, if_pos hD, if_pos hD]
    exact ⟨rfl, rfl⟩
  · have hsolo := solo_of_le hpos hD
    exact ⟨by rw [isSoloAt_tables hu, hsolo], soloLayout_tables hg hu hsolo⟩
  · exact ⟨by rw [isSoloAt_tables hu, not_solo_of_lt hD], levelLayout_tables hg hu hD⟩

/-- Vertex 1 has seven levels, vertex 0 is solo, vertex 2 is empty. -/
theorem build_levels_layout_example :
    let hpat := Hpat.build {} hub (uniformBias : Bias ℚ Unit) kAuxIndexMaxBytes (ForSchedule.serial _)
      (ForSchedule.serial _)
    Fills ((List.range hub.numVertices).flatMap fun u => (hpat.tableWrites hub uniformBias u).map Prod.fst)
      hpat.aliasArena.length ∧
    Fills ((List.range hub.numVertices).flatMap fun u => (hpat.totalWrites hub uniformBias u).map Prod.fst)
      hpat.trunkTotals.length ∧
    (∀ order : List Nat, order.Perm (List.range hub.numVertices) →
      writeRegions (List.replicate hpat.aliasArena.length ⟨0, 0⟩) (order.flatMap (hpat.tableWrites hub uniformBias)) =
          hpat.aliasArena ∧
        writeRegions (List.replicate hpat.trunkTotals.length 0) (order.flatMap (hpat.totalWrites hub uniformBias)) =
          hpat.trunkTotals) ∧
    (∀ u < hub.numVertices, ∀ (scratch : BuildScratch ℚ) (aliasArena : List (AliasEntry ℚ)) (trunkTotals : List ℚ),
      aliasArena.length = hpat.aliasArena.length → trunkTotals.length = hpat.trunkTotals.length →
      let built := (buildVertex hub uniformBias u scratch
        { hpat with aliasArena := aliasArena, trunkTotals := trunkTotals }).2
      built.aliasArena = writeRegions aliasArena (hpat.tableWrites hub uniformBias u) ∧
        built.trunkTotals = writeRegions trunkTotals (hpat.totalWrites hub uniformBias u)) ∧
    (hpat.tableWrites hub uniformBias 2 = [] ∧ hpat.totalWrites hub uniformBias 2 = []) ∧
    (hpat.isSoloAt 0 = true ∧ SoloLayout hpat hub uniformBias 0) ∧
    hpat.isSoloAt 1 = false ∧ LevelLayout hpat hub uniformBias 1 := by
  obtain ⟨hdegree₀, hdegree₁, hdegree₂⟩ := degree_hub
  have hn : hub.numVertices = 3 := hub_storesInput.numVertices
  have hthreshold : kHpatDegreeThreshold = 64 := rfl
  have h := build_levels_layout StdSort.stable {} (Schedule.serial hubEdges true) endpointsIn_hubEdges {}
    (uniformBias : Bias ℚ Unit) kAuxIndexMaxBytes
  dsimp only at h ⊢
  rw [hub_eq] at h
  obtain ⟨htables, htotals, horders, hwrites, hlayout⟩ := h (ForSchedule.serial _) (ForSchedule.serial _)
  obtain ⟨-, hsolo, -⟩ := hlayout 0 (by omega)
  obtain ⟨-, -, hlevels⟩ := hlayout 1 (by omega)
  obtain ⟨hempty, -⟩ := hlayout 2 (by omega)
  exact ⟨htables, htotals, horders, hwrites, hempty hdegree₂, hsolo (by omega) (by omega), hlevels (by omega)⟩

end Hpat

end Tea
