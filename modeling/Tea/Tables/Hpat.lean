import Tea.Tables.AuxIndex
import Tea.Tables.Vertex
/-!
# The hierarchical persistent alias table

A vertex of degree `D` up to `kHpatDegreeThreshold` is solo: `Hpat` stores one alias table of all its edges. A vertex
of larger degree has levels `0..⌊log₂ D⌋`; level `k` consists of the `D >>> k` full trunks of size `2^k`, and
every trunk has an alias table and a total weight.

The tables of a vertex lie level after level in the arenas, so a trunk is found through the sizes of the levels
below it (`hpatAliasLevelOffset`, `hpatTotalsLevelOffset`). `build` ends with the auxiliary index; with a budget of
zero it keeps the index the object had (`build_eq`).
-/

namespace Tea

open Layout Arith

/-- `Hpat`: the arenas, the layout of the vertices, the bias parameters and `aux_index_`. -/
structure Hpat (R P : Type) where
  aliasArena : List (AliasEntry R) := []
  trunkTotals : List R := []
  aliasOffsets : List Nat := []
  totalsOffsets : List Nat := []
  kMax : List Int := []
  isSolo : List Bool := []
  biasParams : List P := []
  auxIndex : AuxIndex := {}

/-! ### Sizes -/

def hpatAliasLevelOffset (D k : Nat) : Nat := ((List.range k).map fun kk => (D >>> kk) <<< kk).sum

def hpatTotalsLevelOffset (D k : Nat) : Nat := ((List.range k).map fun kk => D >>> kk).sum

def hpatAliasEntriesPerVertex (D : Nat) : Nat :=
  if D = 0 then 0 else ((List.range (D.log2 + 1)).map fun k => (D >>> k) <<< k).sum

def hpatTrunksPerVertex (D : Nat) : Nat :=
  if D = 0 then 0 else ((List.range (D.log2 + 1)).map fun k => D >>> k).sum

/-- `is_solo_` of a vertex of degree `D`. -/
def soloOfDegree (D : Nat) : Bool := decide (0 < D ∧ D ≤ kHpatDegreeThreshold)

/-- `K_max_` of a vertex of degree `D`. -/
def kMaxOfDegree (D : Nat) : Int := if D ≤ kHpatDegreeThreshold then -1 else (D.log2 : Int)

/-- How many alias entries a vertex of degree `D` gets. -/
def aliasCells (D : Nat) : Nat :=
  if D = 0 then 0 else if D ≤ kHpatDegreeThreshold then D else hpatAliasEntriesPerVertex D

/-- How many trunk totals a vertex of degree `D` gets. -/
def totalsCells (D : Nat) : Nat :=
  if D = 0 then 0 else if D ≤ kHpatDegreeThreshold then 0 else hpatTrunksPerVertex D

/-- The trunks of a vertex of degree `D`, level by level up to `K`. -/
def levelTrunks (D : Nat) (K : Int) : List TrunkRef :=
  (List.range (K + 1).toNat).flatMap fun k => (List.range (D >>> k)).map fun i => ⟨k, i⟩

namespace Hpat

variable {R P : Type} [Arith R]

/-! ### `Hpat::build` -/

/-- The state of the trunk loops of one vertex. -/
structure Stamping (R : Type) where
  aliasArena : List (AliasEntry R)
  trunkTotals : List R
  aliasCursor : Nat
  totalsCursor : Nat
  scratch : AliasBuildScratch R

/-- One iteration of the trunk loops. -/
def stampTrunk (weights : List R) (aliasOff totalsOff : Nat) (s : Stamping R) (t : TrunkRef) : Stamping R :=
  let trunkSize := 1 <<< t.level
  let edgeLo := t.index * trunkSize
  let wSlice := slice weights edgeLo trunkSize
  let (entries, scratch) :=
    buildAliasInto (slice s.aliasArena (aliasOff + s.aliasCursor) trunkSize) wSlice s.scratch
  ⟨splice s.aliasArena (aliasOff + s.aliasCursor) entries,
    s.trunkTotals.set (totalsOff + s.totalsCursor) (Arith.sum wSlice),
    s.aliasCursor + trunkSize, s.totalsCursor + 1, scratch⟩

/-- Build vertex `u`. -/
def buildVertex (graph : TemporalGraph) (bias : Bias R P) (u : Nat) (scratch : BuildScratch R) (hpat : Hpat R P) :
    BuildScratch R × Hpat R P :=
  let D := graph.degree u
  if D = 0 then (scratch, hpat)
  else
    let ts := graph.timestampsOf u
    let params := bias.computePerVertexParams ts
    let weights := bias.computeWeights ts params 0 (resize D 0 scratch.weights)
    let aliasOff := hpat.aliasOffsets.getD u 0
    let biasParams := hpat.biasParams.set u params
    if hpat.isSolo.getD u false then
      let (entries, aliasScratch) := buildAliasInto (slice hpat.aliasArena aliasOff D) weights scratch.aliasScratch
      ({ weights, aliasScratch },
        { hpat with aliasArena := splice hpat.aliasArena aliasOff entries, biasParams := biasParams })
    else
      let stamped := (levelTrunks D (hpat.kMax.getD u 0)).foldl
        (stampTrunk weights aliasOff (hpat.totalsOffsets.getD u 0))
        ⟨hpat.aliasArena, hpat.trunkTotals, 0, 0, scratch.aliasScratch⟩
      ({ weights, aliasScratch := stamped.scratch },
        { hpat with
          aliasArena := stamped.aliasArena
          trunkTotals := stamped.trunkTotals
          biasParams := biasParams })

/-- `Hpat::build` on the object `self`; `σ` and `σ'` are the schedules of its loop and of the index' loop. -/
def build (self : Hpat R P) (graph : TemporalGraph) (bias : Bias R P) (auxBudgetBytes : Nat)
    (σ σ' : ForSchedule graph.numVertices) : Hpat R P :=
  let degrees := (List.range graph.numVertices).map graph.degree
  let hpat := { self with
    kMax := degrees.map kMaxOfDegree
    isSolo := degrees.map soloOfDegree
    aliasOffsets := exclusiveScan 0 (degrees.map aliasCells)
    totalsOffsets := exclusiveScan 0 (degrees.map totalsCells)
    biasParams := List.replicate graph.numVertices bias.defaultParams
    aliasArena := List.replicate (degrees.map aliasCells).sum ⟨0, 0⟩
    trunkTotals := List.replicate (degrees.map totalsCells).sum 0 }
  let hpat := parallelFor (buildVertex graph bias) σ.steps (fun _ => {}) hpat
  if 0 < auxBudgetBytes then
    { hpat with auxIndex := (hpat.auxIndex.build graph hpat.kMax (some hpat.isSolo) auxBudgetBytes σ').1 }
  else hpat

/-! ### Accessors -/

def kMaxOf (hpat : Hpat R P) (u : Nat) : Int := hpat.kMax.getD u 0

def isSoloAt (hpat : Hpat R P) (u : Nat) : Bool := hpat.isSolo.getD u false

def soloAliasView (hpat : Hpat R P) (graph : TemporalGraph) (u : Nat) : List (AliasEntry R) :=
  slice hpat.aliasArena (hpat.aliasOffsets.getD u 0) (graph.degree u)

def aliasViewOfTrunk (hpat : Hpat R P) (graph : TemporalGraph) (u k i : Nat) : List (AliasEntry R) :=
  slice hpat.aliasArena
    (hpat.aliasOffsets.getD u 0 + hpatAliasLevelOffset (graph.degree u) k + i * (1 <<< k)) (1 <<< k)

def trunkTotalOf (hpat : Hpat R P) (graph : TemporalGraph) (u k i : Nat) : R :=
  hpat.trunkTotals.getD (hpat.totalsOffsets.getD u 0 + hpatTotalsLevelOffset (graph.degree u) k + i) 0

def biasParamsOf (hpat : Hpat R P) (bias : Bias R P) (u : Nat) : P := hpat.biasParams.getD u bias.defaultParams

/-! ### The blocks of a vertex -/

section blocks

/-- The weights of a trunk. -/
def trunkWeights (ws : List R) (t : TrunkRef) : List R := slice ws t.lo (2 ^ t.level)

omit [Arith R] in
theorem length_trunkWeights {ws : List R} {t : TrunkRef} (ht : t.hi ≤ ws.length) :
    (trunkWeights ws t).length = 2 ^ t.level :=
  length_slice (by rwa [TrunkRef.hi_eq] at ht)

theorem mem_levelTrunks {D : Nat} {K : Int} {t : TrunkRef} (ht : t ∈ levelTrunks D K) :
    t.level < (K + 1).toNat ∧ t.index < D >>> t.level ∧ t.hi ≤ D := by
  obtain ⟨k, hk, ht⟩ := List.mem_flatMap.mp ht
  obtain ⟨i, hi, rfl⟩ := List.mem_map.mp ht
  rw [List.mem_range] at hk hi
  refine ⟨hk, hi, ?_⟩
  rw [Nat.shiftRight_eq_div_pow] at hi
  exact (Nat.le_div_iff_mul_le (Nat.two_pow_pos k)).mp hi

theorem stampTrunk_eq (ws : List R) (aliasOff totalsOff : Nat) (s : Stamping R) (t : TrunkRef) (ht : t.hi ≤ ws.length)
    (halias : aliasOff + s.aliasCursor + 2 ^ t.level ≤ s.aliasArena.length) :
    ∃ scratch, stampTrunk ws aliasOff totalsOff s t =
      ⟨splice s.aliasArena (aliasOff + s.aliasCursor) (voseTable (trunkWeights ws t)),
        s.trunkTotals.set (totalsOff + s.totalsCursor) (Arith.sum (trunkWeights ws t)),
        s.aliasCursor + 2 ^ t.level, s.totalsCursor + 1, scratch⟩ := by
  have hlen : (slice s.aliasArena (aliasOff + s.aliasCursor) (2 ^ t.level)).length = (trunkWeights ws t).length := by
    rw [length_slice halias, length_trunkWeights ht]
  have htable := buildAliasInto_eq hlen s.scratch
  refine ⟨(buildAliasInto (slice s.aliasArena (aliasOff + s.aliasCursor) (2 ^ t.level)) (trunkWeights ws t)
    s.scratch).2, ?_⟩
  rw [← htable]
  unfold stampTrunk
  simp only [Nat.one_shiftLeft]
  rfl

theorem length_flatten_tables (ws : List R) (ts : List TrunkRef) (hts : ∀ t ∈ ts, t.hi ≤ ws.length) :
    ((ts.map fun t => voseTable (trunkWeights ws t)).flatten).length = (ts.map fun t => 2 ^ t.level).sum := by
  rw [List.length_flatten, List.map_map]
  congr 1
  exact List.map_congr_left fun t ht => (length_voseTable _).trans (length_trunkWeights (hts t ht))

/-- The trunk loops stamp the tables one behind the other and record the totals. -/
theorem foldl_stampTrunk (ws : List R) (aliasOff totalsOff : Nat) (ts : List TrunkRef) (s : Stamping R)
    (hts : ∀ t ∈ ts, t.hi ≤ ws.length)
    (halias : aliasOff + s.aliasCursor + (ts.map fun t => 2 ^ t.level).sum ≤ s.aliasArena.length)
    (htotals : totalsOff + s.totalsCursor + ts.length ≤ s.trunkTotals.length) :
    (ts.foldl (stampTrunk ws aliasOff totalsOff) s).aliasArena =
        splice s.aliasArena (aliasOff + s.aliasCursor) (ts.map fun t => voseTable (trunkWeights ws t)).flatten ∧
      (ts.foldl (stampTrunk ws aliasOff totalsOff) s).trunkTotals =
        splice s.trunkTotals (totalsOff + s.totalsCursor) (ts.map fun t => Arith.sum (trunkWeights ws t)) := by
  induction ts generalizing s with
  | nil => simp [splice_nil]
  | cons t ts ih =>
      have ht : t.hi ≤ ws.length := hts t (by simp)
      rw [List.map_cons, List.sum_cons] at halias
      rw [List.length_cons] at htotals
      have htable : (voseTable (trunkWeights ws t)).length = 2 ^ t.level := by
        rw [length_voseTable, length_trunkWeights ht]
      have hrest := length_flatten_tables ws ts fun t ht => hts t (List.mem_cons_of_mem _ ht)
      obtain ⟨scratch, hstep⟩ := stampTrunk_eq ws aliasOff totalsOff s t ht (by omega)
      have hone : aliasOff + s.aliasCursor + (voseTable (trunkWeights ws t)).length ≤ s.aliasArena.length := by omega
      have hone' : totalsOff + s.totalsCursor + [Arith.sum (trunkWeights ws t)].length ≤ s.trunkTotals.length := by
        rw [List.length_singleton]
        omega
      have hset : s.trunkTotals.set (totalsOff + s.totalsCursor) (Arith.sum (trunkWeights ws t)) =
          splice s.trunkTotals (totalsOff + s.totalsCursor) [Arith.sum (trunkWeights ws t)] :=
        set_eq_splice (by omega) _
      have hrun := ih (stampTrunk ws aliasOff totalsOff s t)
      rw [hstep, hset] at hrun
      rw [List.foldl_cons, hstep, hset]
      obtain ⟨harena, htots⟩ := hrun (fun t ht => hts t (List.mem_cons_of_mem _ ht))
        (by dsimp only; rw [length_splice hone]; omega) (by dsimp only; rw [length_splice hone']; omega)
      have hfit : aliasOff + s.aliasCursor + (voseTable (trunkWeights ws t)).length +
          ((ts.map fun t => voseTable (trunkWeights ws t)).flatten).length ≤ s.aliasArena.length := by omega
      have hjoin := splice_splice hfit
      rw [htable, Nat.add_assoc aliasOff] at hjoin
      have hfit' : totalsOff + s.totalsCursor + [Arith.sum (trunkWeights ws t)].length +
          (ts.map fun t => Arith.sum (trunkWeights ws t)).length ≤ s.trunkTotals.length := by
        rw [List.length_singleton, List.length_map]
        omega
      exact ⟨harena.trans hjoin, htots.trans (splice_splice hfit')⟩

/-- The alias tables of the trunks, level by level. -/
def levelTables (ws : List R) (K : Int) : List (List (List (AliasEntry R))) :=
  (List.range (K + 1).toNat).map fun k => (List.range (ws.length >>> k)).map fun i =>
    voseTable (trunkWeights ws ⟨k, i⟩)

/-- The totals of the trunks, level by level. -/
def levelTotals (ws : List R) (K : Int) : List (List R) :=
  (List.range (K + 1).toNat).map fun k => (List.range (ws.length >>> k)).map fun i =>
    Arith.sum (trunkWeights ws ⟨k, i⟩)

variable {ws : List R} {K : Int}

theorem flatten_levelTables : (levelTables ws K).flatten =
    (levelTrunks ws.length K).map fun t => voseTable (trunkWeights ws t) := by
  simp only [levelTables, levelTrunks, List.flatMap_def, List.map_flatten, List.map_map, Function.comp_def]

theorem flatten_levelTotals : (levelTotals ws K).flatten =
    (levelTrunks ws.length K).map fun t => Arith.sum (trunkWeights ws t) := by
  simp only [levelTotals, levelTrunks, List.flatMap_def, List.map_flatten, List.map_map, Function.comp_def]

omit [Arith R] in
theorem index_hi_le {k i : Nat} (hi : i < ws.length >>> k) : TrunkRef.hi ⟨k, i⟩ ≤ ws.length := by
  rw [Nat.shiftRight_eq_div_pow] at hi
  exact (Nat.le_div_iff_mul_le (Nat.two_pow_pos k)).mp hi

theorem start_level {k i : Nat} (hi : i ≤ ws.length >>> k) :
    start ((List.range (ws.length >>> k)).map fun i => voseTable (trunkWeights ws ⟨k, i⟩)) i = i * 2 ^ k := by
  induction i with
  | zero => simp [start]
  | succ i ih =>
      have hi' : i < ws.length >>> k := hi
      rw [start_succ _ _ (by simpa using hi'), ih hi'.le, List.getElem_map, List.getElem_range, length_voseTable,
        length_trunkWeights (index_hi_le hi'), Nat.succ_mul]

theorem length_level (k : Nat) :
    ((List.range (ws.length >>> k)).map fun i => voseTable (trunkWeights ws ⟨k, i⟩)).flatten.length =
      (ws.length >>> k) <<< k := by
  have hlen : ((List.range (ws.length >>> k)).map fun i => voseTable (trunkWeights ws ⟨k, i⟩)).length =
      ws.length >>> k := by simp
  rw [← start_length, hlen, start_level le_rfl, Nat.shiftLeft_eq]

theorem start_levelTables {k : Nat} (hk : k ≤ (K + 1).toNat) :
    start ((levelTables ws K).map List.flatten) k = hpatAliasLevelOffset ws.length k := by
  rw [start, levelTables, List.map_map, List.map_map, ← List.map_take, List.take_range, Nat.min_eq_left hk,
    hpatAliasLevelOffset]
  congr 1
  exact List.map_congr_left fun k _ => length_level k

theorem start_levelTotals {k : Nat} (hk : k ≤ (K + 1).toNat) :
    start (levelTotals ws K) k = hpatTotalsLevelOffset ws.length k := by
  rw [start, levelTotals, List.map_map, ← List.map_take, List.take_range, Nat.min_eq_left hk,
    hpatTotalsLevelOffset]
  congr 1
  exact List.map_congr_left fun k _ => by simp

end blocks

/-! ### The whole build -/

section build

variable (graph : TemporalGraph) (bias : Bias R P) (aux : AuxIndex)

def aliasBlock (u : Nat) : List (AliasEntry R) :=
  if graph.degree u ≤ kHpatDegreeThreshold then voseTable (vertexWeights graph bias u)
  else (levelTables (vertexWeights graph bias u) (kMaxOfDegree (graph.degree u))).flatten.flatten

def totalsBlock (u : Nat) : List R :=
  if graph.degree u ≤ kHpatDegreeThreshold then []
  else (levelTotals (vertexWeights graph bias u) (kMaxOfDegree (graph.degree u))).flatten

/-- The tables of a graph, with the auxiliary index `aux`. -/
def tables : Hpat R P where
  aliasArena := ((List.range graph.numVertices).map (aliasBlock graph bias)).flatten
  trunkTotals := ((List.range graph.numVertices).map (totalsBlock graph bias)).flatten
  aliasOffsets := exclusiveScan 0 (((List.range graph.numVertices).map graph.degree).map aliasCells)
  totalsOffsets := exclusiveScan 0 (((List.range graph.numVertices).map graph.degree).map totalsCells)
  kMax := ((List.range graph.numVertices).map graph.degree).map kMaxOfDegree
  isSolo := ((List.range graph.numVertices).map graph.degree).map soloOfDegree
  biasParams := (List.range graph.numVertices).map (vertexParams graph bias)
  auxIndex := aux

variable {graph bias aux} (hg : graph.WellFormed) {u : Nat} (hu : u < graph.numVertices)

theorem kMaxOfDegree_of_lt {D : Nat} (hD : kHpatDegreeThreshold < D) : kMaxOfDegree D = (D.log2 : Int) := by
  rw [kMaxOfDegree, if_neg (by omega)]

theorem levels_of_lt {D : Nat} (hD : kHpatDegreeThreshold < D) : (kMaxOfDegree D + 1).toNat = D.log2 + 1 := by
  rw [kMaxOfDegree_of_lt hD]
  omega

include hg hu in
theorem length_aliasBlock : (aliasBlock graph bias u).length = aliasCells (graph.degree u) := by
  have hws : (vertexWeights graph bias u).length = graph.degree u := length_vertexWeights hg hu
  unfold aliasBlock aliasCells
  split_ifs with hsolo hzero hzero
  · rw [length_voseTable, hws, hzero]
  · rw [length_voseTable, hws]
  · rw [hzero] at hsolo
    exact absurd (Nat.zero_le _) hsolo
  · have hlen : ((levelTables (vertexWeights graph bias u) (kMaxOfDegree (graph.degree u))).map List.flatten).length =
        (graph.degree u).log2 + 1 := by
      rw [List.length_map, levelTables, List.length_map, List.length_range, levels_of_lt (by omega)]
    rw [List.flatten_flatten, ← start_length, hlen, start_levelTables (levels_of_lt (by omega)).ge, hws,
      hpatAliasEntriesPerVertex, if_neg hzero, hpatAliasLevelOffset]

include hg hu in
theorem length_totalsBlock : (totalsBlock graph bias u).length = totalsCells (graph.degree u) := by
  have hws : (vertexWeights graph bias u).length = graph.degree u := length_vertexWeights hg hu
  unfold totalsBlock totalsCells
  split_ifs with hsolo hzero hzero
  · rfl
  · rfl
  · rw [hzero] at hsolo
    exact absurd (Nat.zero_le _) hsolo
  · have hlen : (levelTotals (vertexWeights graph bias u) (kMaxOfDegree (graph.degree u))).length =
        (graph.degree u).log2 + 1 := by
      rw [levelTotals, List.length_map, List.length_range, levels_of_lt (by omega)]
    rw [← start_length, hlen, start_levelTotals (levels_of_lt (by omega)).ge, hws, hpatTrunksPerVertex, if_neg hzero,
      hpatTotalsLevelOffset]

include hg in
theorem map_length_aliasBlocks : ((List.range graph.numVertices).map (aliasBlock graph bias)).map List.length =
    ((List.range graph.numVertices).map graph.degree).map aliasCells := by
  rw [List.map_map, List.map_map]
  exact List.map_congr_left fun u hu => length_aliasBlock hg (List.mem_range.mp hu)

include hg in
theorem map_length_totalsBlocks : ((List.range graph.numVertices).map (totalsBlock graph bias)).map List.length =
    ((List.range graph.numVertices).map graph.degree).map totalsCells := by
  rw [List.map_map, List.map_map]
  exact List.map_congr_left fun u hu => length_totalsBlock hg (List.mem_range.mp hu)

include hg in
theorem start_aliasBlocks (aux : AuxIndex) (hu : u ≤ graph.numVertices) :
    start ((List.range graph.numVertices).map (aliasBlock graph bias)) u =
      (tables graph bias aux).aliasOffsets.getD u 0 := by
  rw [start, map_length_aliasBlocks hg, tables, getD_exclusiveScan _ _ (by simpa using hu)]

include hg in
theorem start_totalsBlocks (aux : AuxIndex) (hu : u ≤ graph.numVertices) :
    start ((List.range graph.numVertices).map (totalsBlock graph bias)) u =
      (tables graph bias aux).totalsOffsets.getD u 0 := by
  rw [start, map_length_totalsBlocks hg, tables, getD_exclusiveScan _ _ (by simpa using hu)]

/-- The invariant of the parallel loop: the layout as decided, and default parameters where no iteration
writes them. -/
structure Sized (graph : TemporalGraph) (bias : Bias R P) (aux : AuxIndex) (hpat : Hpat R P) : Prop where
  layout : hpat.aliasOffsets = (tables graph bias aux).aliasOffsets ∧
    hpat.totalsOffsets = (tables graph bias aux).totalsOffsets ∧ hpat.kMax = (tables graph bias aux).kMax ∧
    hpat.isSolo = (tables graph bias aux).isSolo ∧ hpat.auxIndex = aux
  aliasArena : hpat.aliasArena.length = (tables graph bias aux).aliasArena.length
  trunkTotals : hpat.trunkTotals.length = (tables graph bias aux).trunkTotals.length
  biasParams : hpat.biasParams.length = graph.numVertices
  untouched : ∀ u < graph.numVertices, graph.degree u = 0 → hpat.biasParams[u]? = some bias.defaultParams

/-- What building a vertex does: it overwrites its blocks. -/
def stampVertex (graph : TemporalGraph) (bias : Bias R P) (u : Nat) (hpat : Hpat R P) : Hpat R P :=
  { hpat with
    aliasArena := splice hpat.aliasArena (hpat.aliasOffsets.getD u 0) (aliasBlock graph bias u)
    trunkTotals := splice hpat.trunkTotals (hpat.totalsOffsets.getD u 0) (totalsBlock graph bias u)
    biasParams := splice hpat.biasParams u [vertexParams graph bias u] }

include hg hu in
theorem blocks_le {hpat : Hpat R P} (hs : Sized graph bias aux hpat) :
    hpat.aliasOffsets.getD u 0 + (aliasBlock graph bias u).length ≤ hpat.aliasArena.length ∧
      hpat.totalsOffsets.getD u 0 + (totalsBlock graph bias u).length ≤ hpat.trunkTotals.length := by
  have halias := start_add_length_le ((List.range graph.numVertices).map (aliasBlock graph bias)) u
    (by simpa using hu)
  have htotals := start_add_length_le ((List.range graph.numVertices).map (totalsBlock graph bias)) u
    (by simpa using hu)
  obtain ⟨hoff, hoff', -⟩ := hs.layout
  rw [start_aliasBlocks hg aux hu.le, List.getElem_map, List.getElem_range, ← hoff] at halias
  rw [start_totalsBlocks hg aux hu.le, List.getElem_map, List.getElem_range, ← hoff'] at htotals
  rw [hs.aliasArena, hs.trunkTotals]
  exact ⟨halias, htotals⟩

include hu in
theorem Sized.path {hpat : Hpat R P} (hs : Sized graph bias aux hpat) :
    hpat.kMax.getD u 0 = kMaxOfDegree (graph.degree u) ∧ hpat.isSolo.getD u false = soloOfDegree (graph.degree u) := by
  obtain ⟨-, -, hkMax, hisSolo, -⟩ := hs.layout
  constructor
  · simp [hkMax, tables, List.getD_eq_getElem?_getD, hu]
  · simp [hisSolo, tables, List.getD_eq_getElem?_getD, hu]

include hg hu in
theorem buildVertex_eq {hpat : Hpat R P} (hs : Sized graph bias aux hpat) (scratch : BuildScratch R) :
    (buildVertex graph bias u scratch hpat).2 = stampVertex graph bias u hpat := by
  obtain ⟨halias, htotals⟩ := blocks_le hg hu hs
  obtain ⟨hK, hsolo⟩ := hs.path hu
  have hws : (vertexWeights graph bias u).length = graph.degree u := length_vertexWeights hg hu
  unfold buildVertex stampVertex
  dsimp only
  rw [computeWeights_vertex hg hu, hsolo, hK]
  rcases Nat.eq_zero_or_pos (graph.degree u) with hD | hD
  · -- an empty vertex is skipped: its blocks are empty and its parameters are the default ones
    have hblock : aliasBlock graph bias u = [] := by
      rw [← List.length_eq_zero_iff, length_aliasBlock hg hu, hD]
      rfl
    have hblock' : totalsBlock graph bias u = [] := by
      rw [← List.length_eq_zero_iff, length_totalsBlock hg hu, hD]
      rfl
    rw [if_pos hD, hblock, hblock', splice_nil, splice_nil, splice_vertexParams_empty hD (hs.untouched u hu hD)]
  · rw [if_neg hD.ne', set_eq_splice (by rw [hs.biasParams]; exact hu), vertexParams, if_neg hD.ne']
    by_cases hthreshold : graph.degree u ≤ kHpatDegreeThreshold
    · have hflag : soloOfDegree (graph.degree u) = true := by simp [soloOfDegree, hD, hthreshold]
      have hblock : aliasBlock graph bias u = voseTable (vertexWeights graph bias u) := if_pos hthreshold
      have hblock' : totalsBlock graph bias u = [] := if_pos hthreshold
      rw [hblock, length_voseTable, hws] at halias
      rw [if_pos hflag, hblock, hblock', splice_nil]
      dsimp only
      rw [buildAliasInto_eq (by rw [length_slice halias, hws])]
    · have hflag : soloOfDegree (graph.degree u) = false := by simp [soloOfDegree, hthreshold]
      have hblock : aliasBlock graph bias u = _ := if_neg hthreshold
      have hblock' : totalsBlock graph bias u = _ := if_neg hthreshold
      rw [hblock, flatten_levelTables] at halias
      rw [hblock', flatten_levelTotals, List.length_map] at htotals
      rw [if_neg (by simp [hflag]), hblock, hblock', flatten_levelTables, flatten_levelTotals, hws]
      rw [hws] at halias htotals
      have hinside : ∀ t ∈ levelTrunks (graph.degree u) (kMaxOfDegree (graph.degree u)),
          t.hi ≤ (vertexWeights graph bias u).length := fun t ht => by
        rw [hws]
        exact (mem_levelTrunks ht).2.2
      rw [length_flatten_tables _ _ hinside] at halias
      obtain ⟨harena, htots⟩ := foldl_stampTrunk (vertexWeights graph bias u) (hpat.aliasOffsets.getD u 0)
        (hpat.totalsOffsets.getD u 0) (levelTrunks (graph.degree u) (kMaxOfDegree (graph.degree u)))
        ⟨hpat.aliasArena, hpat.trunkTotals, 0, 0, scratch.aliasScratch⟩ hinside halias htotals
      rw [harena, htots]
      rfl

include hg hu in
theorem sized_stampVertex {hpat : Hpat R P} (hs : Sized graph bias aux hpat) :
    Sized graph bias aux (stampVertex graph bias u hpat) := by
  obtain ⟨halias, htotals⟩ := blocks_le hg hu hs
  have hend : u + [vertexParams graph bias u].length ≤ hpat.biasParams.length := by
    rw [hs.biasParams]
    exact hu
  refine ⟨hs.layout, ?_, ?_, ?_, ?_⟩
  · rw [stampVertex, length_splice halias, hs.aliasArena]
  · rw [stampVertex, length_splice htotals, hs.trunkTotals]
  · rw [stampVertex, length_splice hend, hs.biasParams]
  · intro v hv hD
    exact getElem?_splice_vertexParams hend hD (hs.untouched v hv hD)

/-- The object after the allocation. -/
def allocated (self : Hpat R P) (graph : TemporalGraph) (bias : Bias R P) : Hpat R P :=
  let degrees := (List.range graph.numVertices).map graph.degree
  { self with
    kMax := degrees.map kMaxOfDegree
    isSolo := degrees.map soloOfDegree
    aliasOffsets := exclusiveScan 0 (degrees.map aliasCells)
    totalsOffsets := exclusiveScan 0 (degrees.map totalsCells)
    biasParams := List.replicate graph.numVertices bias.defaultParams
    aliasArena := List.replicate (degrees.map aliasCells).sum ⟨0, 0⟩
    trunkTotals := List.replicate (degrees.map totalsCells).sum 0 }

include hg in
theorem sized_allocated (self : Hpat R P) : Sized graph bias self.auxIndex (self.allocated graph bias) := by
  refine ⟨⟨rfl, rfl, rfl, rfl, rfl⟩, ?_, ?_, List.length_replicate, fun u hu _ => ?_⟩
  · simp only [allocated, tables, List.length_replicate, List.length_flatten, map_length_aliasBlocks hg]
  · simp only [allocated, tables, List.length_replicate, List.length_flatten, map_length_totalsBlocks hg]
  · simp [allocated, hu]

include hg in
theorem loop_eq (self : Hpat R P) (σ : ForSchedule graph.numVertices) :
    parallelFor (buildVertex graph bias) σ.steps (fun _ => {}) (self.allocated graph bias) =
      tables graph bias self.auxIndex := by
  have hsized : Sized graph bias self.auxIndex (self.allocated graph bias) := sized_allocated hg self
  have hkeep : ∀ u (scratch : BuildScratch R) hpat, u < graph.numVertices → Sized graph bias self.auxIndex hpat →
      Sized graph bias self.auxIndex (buildVertex graph bias u scratch hpat).2 := by
    intro u scratch hpat hu hs
    rw [buildVertex_eq hg hu hs]
    exact sized_stampVertex hg hu hs
  have hfinal := parallelFor_inv (buildVertex graph bias) _ hkeep σ (fun _ => {}) _ hsized
  have halias := parallelFor_blocks (buildVertex graph bias) Hpat.aliasArena (aliasBlock graph bias) _
    (fun u scratch hpat hu hs => by
      rw [buildVertex_eq hg hu hs, start_aliasBlocks hg self.auxIndex hu.le, ← hs.layout.1]; rfl)
    hkeep σ (fun _ => {}) _ hsized hsized.aliasArena
  have htotals := parallelFor_blocks (buildVertex graph bias) Hpat.trunkTotals (totalsBlock graph bias) _
    (fun u scratch hpat hu hs => by
      rw [buildVertex_eq hg hu hs, start_totalsBlocks hg self.auxIndex hu.le, ← hs.layout.2.1]; rfl)
    hkeep σ (fun _ => {}) _ hsized hsized.trunkTotals
  have hparams := parallelFor_blocks (buildVertex graph bias) Hpat.biasParams
    (fun u => [vertexParams graph bias u]) _
    (fun u scratch hpat hu hs => by rw [buildVertex_eq hg hu hs, start_singletons _ hu.le]; rfl)
    hkeep σ (fun _ => {}) _ hsized (by rw [flatten_singletons, hsized.biasParams]; simp)
  rw [flatten_singletons] at hparams
  generalize parallelFor (buildVertex graph bias) σ.steps (fun _ => {}) _ = built at *
  obtain ⟨aliasArena, trunkTotals, aliasOffsets, totalsOffsets, kMax, isSolo, biasParams, auxIndex⟩ := built
  obtain ⟨⟨hoff, hoff', hk, hflags, haux⟩, -, -, -, -⟩ := hfinal
  simp only at halias htotals hparams hoff hoff' hk hflags haux
  rw [halias, htotals, hparams, hoff, hoff', hk, hflags, haux]
  rfl

theorem kMaxOf_tables (hu : u < graph.numVertices) :
    (tables graph bias aux).kMaxOf u = kMaxOfDegree (graph.degree u) := by
  simp [kMaxOf, tables, List.getD_eq_getElem?_getD, hu]

theorem isSoloAt_tables (hu : u < graph.numVertices) :
    (tables graph bias aux).isSoloAt u = soloOfDegree (graph.degree u) := by
  simp [isSoloAt, tables, List.getD_eq_getElem?_getD, hu]

theorem lt_two_pow_levels {D : Nat} (hsolo : soloOfDegree D = false) : D < 2 ^ (kMaxOfDegree D + 1).toNat := by
  rcases Nat.eq_zero_or_pos D with rfl | hD
  · exact Nat.two_pow_pos _
  · have hlt : kHpatDegreeThreshold < D := by
      by_contra hle
      simp [soloOfDegree, hD, Nat.le_of_not_lt hle] at hsolo
    rw [levels_of_lt hlt]
    exact Nat.lt_log2_self

theorem levelsReach_tables : AuxIndex.LevelsReach graph (tables graph bias aux).kMax
    (some (tables graph bias aux).isSolo) := by
  intro u hu hsolo
  have hflag : (tables graph bias aux).isSoloAt u = soloOfDegree (graph.degree u) := isSoloAt_tables hu
  have hK : (tables graph bias aux).kMax.getD u 0 = kMaxOfDegree (graph.degree u) := kMaxOf_tables hu
  rw [hK]
  exact lt_two_pow_levels (hflag.symm.trans hsolo)

/-- The auxiliary index that a build with a positive budget leaves. -/
def auxOf (graph : TemporalGraph) (auxBudgetBytes : Nat) : AuxIndex :=
  let kMax := ((List.range graph.numVertices).map graph.degree).map kMaxOfDegree
  let isSolo := some (((List.range graph.numVertices).map graph.degree).map soloOfDegree)
  if auxBudgetBytes < AuxIndex.bytesNeeded graph.numVertices (AuxIndex.allCovers graph kMax isSolo).length
      (AuxIndex.allCovers graph kMax isSolo).flatten.length then {}
  else AuxIndex.index graph kMax isSolo

include hg in
/-- **What the build does**: it leaves the tables of the graph, however the vertices are distributed, and
replaces the auxiliary index exactly if the budget is positive. -/
theorem build_eq (self : Hpat R P) (auxBudgetBytes : Nat) (σ σ' : ForSchedule graph.numVertices) :
    self.build graph bias auxBudgetBytes σ σ' =
      tables graph bias (if 0 < auxBudgetBytes then auxOf graph auxBudgetBytes else self.auxIndex) := by
  have hloop : parallelFor (buildVertex graph bias) σ.steps (fun _ => {}) (self.allocated graph bias) =
      tables graph bias self.auxIndex := loop_eq hg self σ
  unfold allocated at hloop
  unfold build
  dsimp only at hloop ⊢
  rw [hloop]
  split_ifs with hbudget
  · have haux : ((tables graph bias self.auxIndex).auxIndex.build graph (tables graph bias self.auxIndex).kMax
        (some (tables graph bias self.auxIndex).isSolo) auxBudgetBytes σ').1 = auxOf graph auxBudgetBytes := by
      rw [AuxIndex.build_eq levelsReach_tables]
      exact apply_ite Prod.fst _ _ _
    rw [haux]
    rfl
  · rfl

/-! ### What the accessors read -/

theorem biasParamsOf_tables (hu : u < graph.numVertices) (hD : 0 < graph.degree u) :
    (tables graph bias aux).biasParamsOf bias u = bias.computePerVertexParams (graph.timestampsOf u) := by
  simp [biasParamsOf, tables, List.getD_eq_getElem?_getD, hu, vertexParams, hD.ne']

include hg hu in
theorem slice_aliasArena : slice (tables graph bias aux).aliasArena ((tables graph bias aux).aliasOffsets.getD u 0)
    (aliasCells (graph.degree u)) = aliasBlock graph bias u := by
  have hlen : u < ((List.range graph.numVertices).map (aliasBlock graph bias)).length := by simpa using hu
  have hslice := slice_flatten _ u hlen
  rw [List.getElem_map, List.getElem_range, start_aliasBlocks hg aux hu.le, length_aliasBlock hg hu] at hslice
  exact hslice

include hg hu in
theorem soloAliasView_tables (hsolo : soloOfDegree (graph.degree u) = true) :
    (tables graph bias aux).soloAliasView graph u = voseTable (vertexWeights graph bias u) := by
  have hD : 0 < graph.degree u ∧ graph.degree u ≤ kHpatDegreeThreshold := by simpa [soloOfDegree] using hsolo
  have hslice : slice (tables graph bias aux).aliasArena ((tables graph bias aux).aliasOffsets.getD u 0)
    (aliasCells (graph.degree u)) = aliasBlock graph bias u := slice_aliasArena hg hu
  rw [aliasCells, if_neg hD.1.ne', if_pos hD.2, aliasBlock, if_pos hD.2] at hslice
  exact hslice

include hg hu in
theorem aliasViewOfTrunk_tables (hD : kHpatDegreeThreshold < graph.degree u) {k i : Nat} (hk : k ≤ (graph.degree u).log2)
    (hi : i < graph.degree u >>> k) : (tables graph bias aux).aliasViewOfTrunk graph u k i =
      voseTable (trunkWeights (vertexWeights graph bias u) ⟨k, i⟩) := by
  have hws : (vertexWeights graph bias u).length = graph.degree u := length_vertexWeights hg hu
  set K := kMaxOfDegree (graph.degree u) with hKdef
  have hlevels : (K + 1).toNat = (graph.degree u).log2 + 1 := levels_of_lt hD
  set levels := levelTables (vertexWeights graph bias u) K with hlevelsdef
  have hblock : aliasBlock graph bias u = levels.flatten.flatten := if_neg (by omega)
  have hslice : slice (tables graph bias aux).aliasArena ((tables graph bias aux).aliasOffsets.getD u 0)
    (aliasCells (graph.degree u)) = aliasBlock graph bias u := slice_aliasArena hg hu
  rw [hblock] at hslice
  have hklen : k < levels.length := by
    rw [hlevelsdef, levelTables, List.length_map, List.length_range]
    omega
  have hlevel : levels[k] = (List.range (graph.degree u >>> k)).map fun i =>
      voseTable (trunkWeights (vertexWeights graph bias u) ⟨k, i⟩) := by
    simp [hlevelsdef, levelTables, hws]
  have hilen : i < levels[k].length := by
    rw [hlevel]
    simpa using hi
  -- the trunk's position among all tables of the vertex, and its table's offset
  have hpos : start levels k + i < levels.flatten.length := by
    have := start_add_length_le levels k hklen
    omega
  have htable : levels.flatten[start levels k + i] =
      voseTable (trunkWeights (vertexWeights graph bias u) ⟨k, i⟩) := by
    have h := getElem?_flatten levels k i hklen hilen
    rw [List.getElem?_eq_getElem hpos] at h
    refine (Option.some.inj h).trans ?_
    simp [hlevel]
  have hoffset : start levels.flatten (start levels k + i) =
      hpatAliasLevelOffset (graph.degree u) k + i * 2 ^ k := by
    rw [start_flatten levels hklen hilen.le, start_levelTables (by omega), hws, hlevel, ← hws,
      start_level (by rw [hws]; exact hi.le)]
  have hview := slice_flatten levels.flatten _ hpos
  have hfit := start_add_length_le levels.flatten _ hpos
  rw [htable, length_voseTable, length_trunkWeights (index_hi_le (by rw [hws]; exact hi))] at hview hfit
  rw [hoffset] at hview hfit
  have hcells : aliasCells (graph.degree u) = levels.flatten.flatten.length := by
    rw [← hblock, length_aliasBlock hg hu]
  unfold aliasViewOfTrunk
  rw [Nat.one_shiftLeft, Nat.add_assoc, ← slice_slice _ _ (aliasCells (graph.degree u)) _ _ (by rw [hcells]; exact hfit),
    hslice]
  exact hview

include hg hu in
theorem trunkTotalOf_tables (hD : kHpatDegreeThreshold < graph.degree u) {k i : Nat} (hk : k ≤ (graph.degree u).log2)
    (hi : i < graph.degree u >>> k) : (tables graph bias aux).trunkTotalOf graph u k i =
      Arith.sum (trunkWeights (vertexWeights graph bias u) ⟨k, i⟩) := by
  have hws : (vertexWeights graph bias u).length = graph.degree u := length_vertexWeights hg hu
  set levels := levelTotals (vertexWeights graph bias u) (kMaxOfDegree (graph.degree u)) with hlevelsdef
  have hlevels : (kMaxOfDegree (graph.degree u) + 1).toNat = (graph.degree u).log2 + 1 := levels_of_lt hD
  have hblock : totalsBlock graph bias u = levels.flatten := if_neg (by omega)
  have hklen : k < levels.length := by
    rw [hlevelsdef, levelTotals, List.length_map, List.length_range]
    omega
  have hlevel : levels[k] = (List.range (graph.degree u >>> k)).map fun i =>
      Arith.sum (trunkWeights (vertexWeights graph bias u) ⟨k, i⟩) := by
    simp [hlevelsdef, levelTotals, hws]
  have hilen : i < levels[k].length := by
    rw [hlevel]
    simpa using hi
  have hulen : u < ((List.range graph.numVertices).map (totalsBlock graph bias)).length := by simpa using hu
  have hget : ((List.range graph.numVertices).map (totalsBlock graph bias))[u] = levels.flatten := by
    rw [List.getElem_map, List.getElem_range, hblock]
  have hpos : start levels k + i < levels.flatten.length := by
    have := start_add_length_le levels k hklen
    omega
  have hread := getElem?_flatten _ u (start levels k + i) hulen (by rw [hget]; exact hpos)
  have hread' := getElem?_flatten levels k i hklen hilen
  rw [start_totalsBlocks hg aux hu.le, ← List.getElem?_eq_getElem, hget, hread'] at hread
  have hoffset : hpatTotalsLevelOffset (graph.degree u) k = start levels k := by
    rw [hlevelsdef, start_levelTotals (by omega), hws]
  unfold trunkTotalOf
  rw [Nat.add_assoc, hoffset, List.getD_eq_getElem?_getD]
  refine (congrArg (Option.getD · 0) hread).trans ?_
  simp [hlevel]

end build

end Hpat

end Tea
