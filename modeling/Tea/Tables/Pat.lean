import Tea.Tables.Vertex
import Mathlib.Data.Nat.Sqrt
/-!
# The persistent alias table

`Pat` cuts the edges of a vertex into trunks of size `T` (the last may be shorter), stores the alias table of
every trunk in `aliasArena`, at the positions of the trunk's edges, and the running sums of the trunks' weights in
`cumsumArena`.

`build` stamps the trunks of every vertex, in parallel over the vertices, with scratch buffers that a thread
reuses. The result is the concatenation of the vertices' blocks (`build_eq`), whichever thread builds which
vertex in which order.
-/

namespace Tea

open Layout Arith

/-- `Pat`: `alias_arena_`, `cumsum_arena_`, `cumsum_offsets_`, `trunk_sizes_`, `bias_params_`. -/
structure Pat (R P : Type) where
  aliasArena : List (AliasEntry R) := []
  cumsumArena : List R := []
  cumsumOffsets : List Nat := []
  trunkSizes : List Nat := []
  biasParams : List P := []

/-- `std::ceil(std::sqrt(D))`. -/
def ceilSqrt (D : Nat) : Nat := if D.sqrt * D.sqrt = D then D.sqrt else D.sqrt + 1

/-- The trunk size of a vertex of degree `D`. -/
def trunkSize (minTrunkSize : Int) (D : Nat) : Nat :=
  if D = 0 then 0
  else
    let T : Int := ceilSqrt D
    let T := if T < minTrunkSize then minTrunkSize else T
    let T := if (D : Int) < T then (D : Int) else T
    T.toNat

/-- `ceil(D / T)`, and zero for an empty vertex. -/
def numTrunks (D T : Nat) : Nat := if 0 < D then (D + T - 1) / T else 0

/-- The length of trunk `i`. -/
def trunkLength (D T i : Nat) : Nat := min ((i + 1) * T) D - i * T

namespace Pat

variable {R P : Type} [Arith R]

/-- The state of the trunk loop of one vertex. -/
structure Stamping (R : Type) where
  aliasArena : List (AliasEntry R)
  cumsumArena : List R
  running : R
  scratch : AliasBuildScratch R

/-- One iteration of the trunk loop. -/
def stampTrunk (weights : List R) (D T aliasOff cumsumOff : Nat) (s : Stamping R) (i : Nat) : Stamping R :=
  let trunkLo := i * T
  let trunkSz := trunkLength D T i
  let wSlice := slice weights trunkLo trunkSz
  let (entries, scratch) :=
    buildAliasInto (slice s.aliasArena (aliasOff + trunkLo) trunkSz) wSlice s.scratch
  let running := s.running + Arith.sum wSlice
  ⟨splice s.aliasArena (aliasOff + trunkLo) entries, s.cumsumArena.set (cumsumOff + i) running, running, scratch⟩

/-- Build vertex `u`. -/
def buildVertex (graph : TemporalGraph) (bias : Bias R P) (u : Nat) (scratch : BuildScratch R) (pat : Pat R P) :
    BuildScratch R × Pat R P :=
  let D := graph.degree u
  if D = 0 then (scratch, pat)
  else
    let ts := graph.timestampsOf u
    let params := bias.computePerVertexParams ts
    let weights := bias.computeWeights ts params 0 (resize D 0 scratch.weights)
    let T := pat.trunkSizes.getD u 0
    let stamped := (List.range (numTrunks D T)).foldl
      (stampTrunk weights D T (graph.offsetOf u) (pat.cumsumOffsets.getD u 0))
      ⟨pat.aliasArena, pat.cumsumArena, 0, scratch.aliasScratch⟩
    ({ weights := weights, aliasScratch := stamped.scratch },
      { pat with
        aliasArena := stamped.aliasArena
        cumsumArena := stamped.cumsumArena
        biasParams := pat.biasParams.set u params })

/-- `Pat::build` on the object `self`. -/
def build (self : Pat R P) (graph : TemporalGraph) (bias : Bias R P) (minTrunkSize : Int)
    (σ : ForSchedule graph.numVertices) : Pat R P :=
  let vertices := List.range graph.numVertices
  let trunkSizes := vertices.map fun u => trunkSize minTrunkSize (graph.degree u)
  let trunks := vertices.map fun u => numTrunks (graph.degree u) (trunkSizes.getD u 0)
  let pat := { self with
    trunkSizes := trunkSizes
    cumsumOffsets := exclusiveScan 0 trunks
    aliasArena := List.replicate graph.numEdges ⟨0, 0⟩
    cumsumArena := List.replicate trunks.sum 0
    biasParams := List.replicate graph.numVertices bias.defaultParams }
  parallelFor (buildVertex graph bias) σ.steps (fun _ => {}) pat

/-! ### Accessors -/

def trunkSizeOf (pat : Pat R P) (u : Nat) : Nat := pat.trunkSizes.getD u 0

def numTrunksOf (pat : Pat R P) (u : Nat) : Nat :=
  pat.cumsumOffsets.getD (u + 1) 0 - pat.cumsumOffsets.getD u 0

def aliasViewOfTrunk (pat : Pat R P) (graph : TemporalGraph) (u trunkIdx : Nat) : List (AliasEntry R) :=
  let T := pat.trunkSizes.getD u 0
  slice pat.aliasArena (graph.offsetOf u + trunkIdx * T) (trunkLength (graph.degree u) T trunkIdx)

def trunkCumsumsOf (pat : Pat R P) (u : Nat) : List R :=
  slice pat.cumsumArena (pat.cumsumOffsets.getD u 0)
    (pat.cumsumOffsets.getD (u + 1) 0 - pat.cumsumOffsets.getD u 0)

def biasParamsOf (pat : Pat R P) (bias : Bias R P) (u : Nat) : P := pat.biasParams.getD u bias.defaultParams

end Pat

/-! ### Trunks tile the positions -/

section trunks

variable {D T i : Nat}

theorem ceilSqrt_le_iff {m : Nat} : ceilSqrt D ≤ m ↔ D ≤ m * m := by
  unfold ceilSqrt
  split_ifs with hsquare
  · rw [← hsquare, Nat.sqrt_eq]
    exact Nat.mul_self_le_mul_self_iff.symm
  · rw [Nat.succ_le_iff, Nat.sqrt_lt]
    constructor
    · exact Nat.le_of_lt
    · intro h
      refine h.lt_of_ne fun heq => hsquare ?_
      rw [heq, Nat.sqrt_eq]

theorem trunkSize_eq (minTrunkSize : Int) (hD : 0 < D) :
    (trunkSize minTrunkSize D : Int) = min (D : Int) (max (ceilSqrt D : Int) minTrunkSize) := by
  unfold trunkSize
  rw [if_neg hD.ne']
  dsimp only
  split_ifs <;> omega

theorem trunkSize_pos (minTrunkSize : Int) (hD : 0 < D) : 0 < trunkSize minTrunkSize D := by
  have hsqrt : 0 < ceilSqrt D := by
    have h := Nat.sqrt_pos.mpr hD
    unfold ceilSqrt
    split_ifs <;> omega
  unfold trunkSize
  rw [if_neg hD.ne']
  dsimp only
  split_ifs <;> omega

theorem numTrunks_spec (hD : 0 < D) (hT : 0 < T) :
    0 < numTrunks D T ∧ (numTrunks D T - 1) * T < D ∧ D ≤ numTrunks D T * T := by
  have hdiv : (D + T - 1) / T = (D - 1) / T + 1 := by
    rw [show D + T - 1 = D - 1 + T by omega, Nat.add_div_right _ hT]
  have hle := Nat.div_mul_le_self (D - 1) T
  have hlt := Nat.lt_div_mul_add (a := D - 1) hT
  rw [numTrunks, if_pos hD, hdiv, Nat.add_sub_cancel, Nat.succ_mul]
  exact ⟨Nat.succ_pos _, by omega, by omega⟩

theorem lo_lt (hT : 0 < T) (hi : i < numTrunks D T) : i * T < D := by
  have hD : 0 < D := by
    by_contra hzero
    rw [numTrunks, if_neg hzero] at hi
    omega
  have h := (numTrunks_spec hD hT).2.1
  have hmul : i * T ≤ (numTrunks D T - 1) * T := Nat.mul_le_mul_right T (by omega)
  omega

theorem lo_add_trunkLength (hi : i * T ≤ D) : i * T + trunkLength D T i = min ((i + 1) * T) D := by
  unfold trunkLength
  rw [Nat.succ_mul]
  omega

theorem lo_add_trunkLength_le (hi : i * T ≤ D) : i * T + trunkLength D T i ≤ D := by
  rw [lo_add_trunkLength hi]
  exact Nat.min_le_right _ _

theorem trunkLength_of_le (h : (i + 1) * T ≤ D) : trunkLength D T i = T := by
  unfold trunkLength
  rw [Nat.min_eq_left h, Nat.succ_mul]
  omega

end trunks

/-! ### The blocks of a vertex -/

namespace Pat

section blocks

variable {R P : Type}

/-- The weights of trunk `i`. -/
def trunkWeights (ws : List R) (T i : Nat) : List R := slice ws (i * T) (trunkLength ws.length T i)

theorem length_trunkWeights {ws : List R} {T i : Nat} (hi : i * T ≤ ws.length) :
    (trunkWeights ws T i).length = trunkLength ws.length T i :=
  length_slice (lo_add_trunkLength_le hi)

variable [Arith R]

/-- The alias tables of the trunks. -/
def trunkTables (ws : List R) (T : Nat) : List (List (AliasEntry R)) :=
  (List.range (numTrunks ws.length T)).map fun i => voseTable (trunkWeights ws T i)

/-- The total weights of the trunks. -/
def trunkTotals (ws : List R) (T : Nat) : List R :=
  (List.range (numTrunks ws.length T)).map fun i => Arith.sum (trunkWeights ws T i)

variable {ws : List R} {T : Nat}

theorem start_trunkTables (hT : 0 < T) {i : Nat} (hi : i ≤ numTrunks ws.length T) :
    start (trunkTables ws T) i = min (i * T) ws.length := by
  induction i with
  | zero => simp [start]
  | succ i ih =>
      have hlen : i < (trunkTables ws T).length := by simpa [trunkTables] using Nat.lt_of_succ_le hi
      have hlo : i * T ≤ ws.length := (lo_lt hT hi).le
      have hget : (trunkTables ws T)[i] = voseTable (trunkWeights ws T i) := by simp [trunkTables]
      rw [start_succ _ _ hlen, ih (by omega), hget, length_voseTable, length_trunkWeights hlo,
        Nat.min_eq_left hlo, lo_add_trunkLength hlo]

theorem length_flatten_trunkTables (hT : 0 < T) : (trunkTables ws T).flatten.length = ws.length := by
  have hlen : (trunkTables ws T).length = numTrunks ws.length T := by simp [trunkTables]
  rw [← start_length, hlen, start_trunkTables hT le_rfl]
  rcases Nat.eq_zero_or_pos ws.length with hzero | hpos
  · simp [hzero]
  · exact Nat.min_eq_right (numTrunks_spec hpos hT).2.2

theorem take_succ_trunkTables {k : Nat} (hk : k < numTrunks ws.length T) : (trunkTables ws T).take (k + 1) =
    (trunkTables ws T).take k ++ [voseTable (trunkWeights ws T k)] := by
  rw [List.take_succ_eq_append_getElem (by simpa [trunkTables] using hk)]
  simp [trunkTables]

theorem take_succ_trunkTotals {k : Nat} (hk : k < numTrunks ws.length T) : (trunkTotals ws T).take (k + 1) =
    (trunkTotals ws T).take k ++ [Arith.sum (trunkWeights ws T k)] := by
  rw [List.take_succ_eq_append_getElem (by simpa [trunkTotals] using hk)]
  simp [trunkTotals]

theorem stampTrunk_eq (hT : 0 < T) (aliasOff cumsumOff : Nat) (s : Stamping R) {k : Nat} (hk : k < numTrunks ws.length T)
    (halias : aliasOff + ws.length ≤ s.aliasArena.length) :
    ∃ scratch, stampTrunk ws ws.length T aliasOff cumsumOff s k =
      ⟨splice s.aliasArena (aliasOff + k * T) (voseTable (trunkWeights ws T k)),
        s.cumsumArena.set (cumsumOff + k) (s.running + Arith.sum (trunkWeights ws T k)),
        s.running + Arith.sum (trunkWeights ws T k), scratch⟩ := by
  have hlo : k * T ≤ ws.length := (lo_lt hT hk).le
  have hend := lo_add_trunkLength_le hlo
  have hlen : (slice s.aliasArena (aliasOff + k * T) (trunkLength ws.length T k)).length = (trunkWeights ws T k).length := by
    rw [length_slice (by omega), length_trunkWeights hlo]
  have htable := buildAliasInto_eq hlen s.scratch
  refine ⟨(buildAliasInto (slice s.aliasArena (aliasOff + k * T) (trunkLength ws.length T k)) (trunkWeights ws T k)
    s.scratch).2, ?_⟩
  rw [← htable]
  rfl

theorem foldl_stampTrunk (ws : List R) (hT : 0 < T) (aliasOff cumsumOff : Nat) (s : Stamping R) (k : Nat)
    (hk : k ≤ numTrunks ws.length T) (halias : aliasOff + ws.length ≤ s.aliasArena.length)
    (hcumsum : cumsumOff + numTrunks ws.length T ≤ s.cumsumArena.length) (hrunning : s.running = 0) :
    let s' := (List.range k).foldl (stampTrunk ws ws.length T aliasOff cumsumOff) s
    s'.aliasArena = splice s.aliasArena aliasOff ((trunkTables ws T).take k).flatten ∧
      s'.cumsumArena = splice s.cumsumArena cumsumOff (Arith.cumsum 0 ((trunkTotals ws T).take k)) ∧
      s'.running = ((trunkTotals ws T).take k).foldl (· + ·) 0 := by
  induction k with
  | zero => simp [splice_nil, Arith.cumsum, hrunning]
  | succ k ih =>
      have hk' : k < numTrunks ws.length T := hk
      obtain ⟨harena, hsums, hrun⟩ := ih hk'.le
      rw [List.range_succ, List.foldl_append, List.foldl_cons, List.foldl_nil]
      set s₀ := (List.range k).foldl (stampTrunk ws ws.length T aliasOff cumsumOff) s
      have hlo : k * T ≤ ws.length := (lo_lt hT hk').le
      have hend := lo_add_trunkLength_le hlo
      have hdone : ((trunkTables ws T).take k).flatten.length = k * T := by
        rw [← start_eq, start_trunkTables hT hk'.le, Nat.min_eq_left hlo]
      have hsumlen : (Arith.cumsum 0 ((trunkTotals ws T).take k)).length = k := by
        simp [trunkTotals, hk'.le]
      have hlen₀ : s₀.aliasArena.length = s.aliasArena.length := by
        rw [harena, length_splice (by omega)]
      obtain ⟨scratch, hstep⟩ := stampTrunk_eq hT aliasOff cumsumOff s₀ hk' (by rwa [hlen₀])
      rw [hstep]
      refine ⟨?_, ?_, ?_⟩
      · show splice s₀.aliasArena (aliasOff + k * T) (voseTable (trunkWeights ws T k)) = _
        rw [harena, take_succ_trunkTables hk', List.flatten_append, List.flatten_singleton, ← hdone]
        refine splice_splice ?_
        rw [hdone, length_voseTable, length_trunkWeights hlo]
        omega
      · show s₀.cumsumArena.set (cumsumOff + k) (s₀.running + Arith.sum (trunkWeights ws T k)) = _
        rw [take_succ_trunkTotals hk', Arith.cumsum_append_singleton, ← hrun, hsums, ← set_splice_end (by omega), hsumlen]
      · show s₀.running + Arith.sum (trunkWeights ws T k) = _
        rw [take_succ_trunkTotals hk', List.foldl_append, List.foldl_cons, List.foldl_nil, hrun]

end blocks

/-! ### The whole build -/

section build

variable {R P : Type} [Arith R] (graph : TemporalGraph) (bias : Bias R P) (minTrunkSize : Int)

def vertexTrunkSize (u : Nat) : Nat := trunkSize minTrunkSize (graph.degree u)

def aliasBlock (u : Nat) : List (AliasEntry R) :=
  (trunkTables (vertexWeights graph bias u) (vertexTrunkSize graph minTrunkSize u)).flatten

def cumsumBlock (u : Nat) : List R :=
  Arith.cumsum 0 (trunkTotals (vertexWeights graph bias u) (vertexTrunkSize graph minTrunkSize u))

/-- The tables of a graph. -/
def tables : Pat R P where
  aliasArena := ((List.range graph.numVertices).map (aliasBlock graph bias minTrunkSize)).flatten
  cumsumArena := ((List.range graph.numVertices).map (cumsumBlock graph bias minTrunkSize)).flatten
  cumsumOffsets := exclusiveScan 0 ((List.range graph.numVertices).map fun u =>
    numTrunks (graph.degree u) (vertexTrunkSize graph minTrunkSize u))
  trunkSizes := (List.range graph.numVertices).map (vertexTrunkSize graph minTrunkSize)
  biasParams := (List.range graph.numVertices).map (vertexParams graph bias)

variable {graph bias minTrunkSize} (hg : graph.WellFormed) {u : Nat} (hu : u < graph.numVertices)

theorem vertexTrunkSize_pos (hD : 0 < graph.degree u) : 0 < vertexTrunkSize graph minTrunkSize u :=
  trunkSize_pos minTrunkSize hD

include hg hu in
theorem length_aliasBlock : (aliasBlock graph bias minTrunkSize u).length = graph.degree u := by
  have hws : (vertexWeights graph bias u).length = graph.degree u := length_vertexWeights hg hu
  rcases Nat.eq_zero_or_pos (graph.degree u) with hD | hD
  · rw [aliasBlock, trunkTables, hws, hD]
    rfl
  · rw [aliasBlock, length_flatten_trunkTables (vertexTrunkSize_pos hD), hws]

include hg hu in
theorem length_cumsumBlock : (cumsumBlock graph bias minTrunkSize u).length =
    numTrunks (graph.degree u) (vertexTrunkSize graph minTrunkSize u) := by
  rw [cumsumBlock, Arith.length_cumsum, trunkTotals, List.length_map, List.length_range, length_vertexWeights hg hu]

include hg in
theorem map_length_aliasBlocks :
    ((List.range graph.numVertices).map (aliasBlock graph bias minTrunkSize)).map List.length =
      (List.range graph.numVertices).map graph.degree := by
  rw [List.map_map]
  exact List.map_congr_left fun u hu => length_aliasBlock hg (List.mem_range.mp hu)

include hg in
theorem map_length_cumsumBlocks :
    ((List.range graph.numVertices).map (cumsumBlock graph bias minTrunkSize)).map List.length =
      (List.range graph.numVertices).map fun u => numTrunks (graph.degree u) (vertexTrunkSize graph minTrunkSize u) := by
  rw [List.map_map]
  exact List.map_congr_left fun u hu => length_cumsumBlock hg (List.mem_range.mp hu)

include hg in
theorem start_aliasBlocks (hu : u ≤ graph.numVertices) :
    start ((List.range graph.numVertices).map (aliasBlock graph bias minTrunkSize)) u = graph.offsetOf u := by
  rw [start, map_length_aliasBlocks hg, hg.offset_eq u hu]

include hg in
theorem start_cumsumBlocks (hu : u ≤ graph.numVertices) :
    start ((List.range graph.numVertices).map (cumsumBlock graph bias minTrunkSize)) u =
      (tables graph bias minTrunkSize).cumsumOffsets.getD u 0 := by
  rw [start, map_length_cumsumBlocks hg, tables, getD_exclusiveScan _ _ (by simpa using hu)]

/-- The invariant of the parallel loop: offsets and sizes as laid out, and default parameters where no
iteration writes them. -/
structure Sized (graph : TemporalGraph) (bias : Bias R P) (minTrunkSize : Int) (pat : Pat R P) : Prop where
  trunkSizes : pat.trunkSizes = (tables graph bias minTrunkSize).trunkSizes
  cumsumOffsets : pat.cumsumOffsets = (tables graph bias minTrunkSize).cumsumOffsets
  aliasArena : pat.aliasArena.length = (tables graph bias minTrunkSize).aliasArena.length
  cumsumArena : pat.cumsumArena.length = (tables graph bias minTrunkSize).cumsumArena.length
  biasParams : pat.biasParams.length = graph.numVertices
  untouched : ∀ u < graph.numVertices, graph.degree u = 0 → pat.biasParams[u]? = some bias.defaultParams

/-- What building a vertex does: it overwrites its blocks. -/
def stampVertex (graph : TemporalGraph) (bias : Bias R P) (minTrunkSize : Int) (u : Nat) (pat : Pat R P) :
    Pat R P :=
  { pat with
    aliasArena := splice pat.aliasArena (graph.offsetOf u) (aliasBlock graph bias minTrunkSize u)
    cumsumArena := splice pat.cumsumArena (pat.cumsumOffsets.getD u 0) (cumsumBlock graph bias minTrunkSize u)
    biasParams := splice pat.biasParams u [vertexParams graph bias u] }

include hg hu in
theorem blocks_le {pat : Pat R P} (hs : Sized graph bias minTrunkSize pat) :
    graph.offsetOf u + (aliasBlock graph bias minTrunkSize u).length ≤ pat.aliasArena.length ∧
      pat.cumsumOffsets.getD u 0 + (cumsumBlock graph bias minTrunkSize u).length ≤ pat.cumsumArena.length := by
  have halias := start_add_length_le ((List.range graph.numVertices).map (aliasBlock graph bias minTrunkSize)) u
    (by simpa using hu)
  have hcumsum := start_add_length_le ((List.range graph.numVertices).map (cumsumBlock graph bias minTrunkSize)) u
    (by simpa using hu)
  rw [start_aliasBlocks hg hu.le, List.getElem_map, List.getElem_range] at halias
  rw [start_cumsumBlocks hg hu.le, List.getElem_map, List.getElem_range] at hcumsum
  rw [hs.aliasArena, hs.cumsumArena, hs.cumsumOffsets]
  exact ⟨halias, hcumsum⟩

include hg hu in
theorem buildVertex_eq {pat : Pat R P} (hs : Sized graph bias minTrunkSize pat) (scratch : BuildScratch R) :
    (buildVertex graph bias u scratch pat).2 = stampVertex graph bias minTrunkSize u pat := by
  obtain ⟨halias, hcumsum⟩ := blocks_le hg hu hs
  have hws : (vertexWeights graph bias u).length = graph.degree u := length_vertexWeights hg hu
  unfold buildVertex stampVertex
  dsimp only
  split_ifs with hD
  · -- an empty vertex is skipped: its blocks are empty and its parameters are the default ones
    have hblock : aliasBlock graph bias minTrunkSize u = [] := by rw [aliasBlock, trunkTables, hws, hD]; rfl
    have hblock' : cumsumBlock graph bias minTrunkSize u = [] := by rw [cumsumBlock, trunkTotals, hws, hD]; rfl
    rw [hblock, hblock', splice_nil, splice_nil, splice_vertexParams_empty hD (hs.untouched u hu hD)]
  · have hTpos : 0 < vertexTrunkSize graph minTrunkSize u := vertexTrunkSize_pos (Nat.pos_of_ne_zero hD)
    have hT : pat.trunkSizes.getD u 0 = vertexTrunkSize graph minTrunkSize u := by
      simp [hs.trunkSizes, tables, List.getD_eq_getElem?_getD, hu]
    rw [length_aliasBlock hg hu] at halias
    rw [length_cumsumBlock hg hu] at hcumsum
    obtain ⟨harena, hsums, -⟩ := foldl_stampTrunk (vertexWeights graph bias u) hTpos (graph.offsetOf u)
      (pat.cumsumOffsets.getD u 0) ⟨pat.aliasArena, pat.cumsumArena, 0, scratch.aliasScratch⟩ _ le_rfl
      (by rw [hws]; exact halias) (by rw [hws]; exact hcumsum) rfl
    rw [hws] at harena hsums
    rw [computeWeights_vertex hg hu, hT, harena, hsums, List.take_of_length_le (by simp [trunkTables, hws]),
      List.take_of_length_le (by simp [trunkTotals, hws]), set_eq_splice (by rw [hs.biasParams]; exact hu),
      vertexParams, if_neg hD]
    rfl

include hg hu in
theorem sized_stampVertex {pat : Pat R P} (hs : Sized graph bias minTrunkSize pat) :
    Sized graph bias minTrunkSize (stampVertex graph bias minTrunkSize u pat) := by
  obtain ⟨halias, hcumsum⟩ := blocks_le hg hu hs
  have hend : u + [vertexParams graph bias u].length ≤ pat.biasParams.length := by
    rw [hs.biasParams]
    exact hu
  refine ⟨hs.trunkSizes, hs.cumsumOffsets, ?_, ?_, ?_, ?_⟩
  · rw [stampVertex, length_splice halias, hs.aliasArena]
  · rw [stampVertex, length_splice hcumsum, hs.cumsumArena]
  · rw [stampVertex, length_splice hend, hs.biasParams]
  · intro v hv hD
    exact getElem?_splice_vertexParams hend hD (hs.untouched v hv hD)

/-- The object after the allocation. -/
def allocated (self : Pat R P) (graph : TemporalGraph) (bias : Bias R P) (minTrunkSize : Int) : Pat R P :=
  { self with
    trunkSizes := (List.range graph.numVertices).map (vertexTrunkSize graph minTrunkSize)
    cumsumOffsets := exclusiveScan 0 ((List.range graph.numVertices).map fun u =>
      numTrunks (graph.degree u) (vertexTrunkSize graph minTrunkSize u))
    aliasArena := List.replicate graph.numEdges ⟨0, 0⟩
    cumsumArena := List.replicate ((List.range graph.numVertices).map fun u =>
      numTrunks (graph.degree u) (vertexTrunkSize graph minTrunkSize u)).sum 0
    biasParams := List.replicate graph.numVertices bias.defaultParams }

theorem build_eq_loop (self : Pat R P) (σ : ForSchedule graph.numVertices) :
    self.build graph bias minTrunkSize σ =
      parallelFor (buildVertex graph bias) σ.steps (fun _ => {}) (self.allocated graph bias minTrunkSize) := by
  have htrunks : ((List.range graph.numVertices).map fun u =>
      numTrunks (graph.degree u) (((List.range graph.numVertices).map fun u =>
        trunkSize minTrunkSize (graph.degree u)).getD u 0)) =
      (List.range graph.numVertices).map fun u => numTrunks (graph.degree u) (vertexTrunkSize graph minTrunkSize u) := by
    refine List.map_congr_left fun u hu => ?_
    simp [List.getD_eq_getElem?_getD, List.mem_range.mp hu, vertexTrunkSize]
  unfold build allocated
  dsimp only
  rw [htrunks]
  rfl

include hg in
theorem sized_allocated (self : Pat R P) :
    Sized graph bias minTrunkSize (self.allocated graph bias minTrunkSize) := by
  refine ⟨rfl, rfl, ?_, ?_, List.length_replicate, fun u hu _ => ?_⟩
  · simp only [allocated, tables, List.length_replicate, List.length_flatten, map_length_aliasBlocks hg,
      hg.numEdges_eq]
  · simp only [allocated, tables, List.length_replicate, List.length_flatten, map_length_cumsumBlocks hg]
  · simp [allocated, hu]

include hg in
/-- **What the build does**: it leaves the tables of the graph, whatever the object held before and however the
vertices are distributed. -/
theorem build_eq (self : Pat R P) (σ : ForSchedule graph.numVertices) :
    self.build graph bias minTrunkSize σ = tables graph bias minTrunkSize := by
  have hsized : Sized graph bias minTrunkSize (self.allocated graph bias minTrunkSize) := sized_allocated hg self
  have hkeep : ∀ u (scratch : BuildScratch R) pat, u < graph.numVertices → Sized graph bias minTrunkSize pat →
      Sized graph bias minTrunkSize (buildVertex graph bias u scratch pat).2 := by
    intro u scratch pat hu hs
    rw [buildVertex_eq hg hu hs]
    exact sized_stampVertex hg hu hs
  have hfinal := parallelFor_inv (buildVertex graph bias) _ hkeep σ (fun _ => {}) _ hsized
  have halias := parallelFor_blocks (buildVertex graph bias) Pat.aliasArena (aliasBlock graph bias minTrunkSize) _
    (fun u scratch pat hu hs => by rw [buildVertex_eq hg hu hs, start_aliasBlocks hg hu.le]; rfl)
    hkeep σ (fun _ => {}) _ hsized hsized.aliasArena
  have hcumsum := parallelFor_blocks (buildVertex graph bias) Pat.cumsumArena (cumsumBlock graph bias minTrunkSize) _
    (fun u scratch pat hu hs => by
      rw [buildVertex_eq hg hu hs, start_cumsumBlocks hg hu.le, ← hs.cumsumOffsets]; rfl)
    hkeep σ (fun _ => {}) _ hsized hsized.cumsumArena
  have hparams := parallelFor_blocks (buildVertex graph bias) Pat.biasParams
    (fun u => [vertexParams graph bias u]) _
    (fun u scratch pat hu hs => by rw [buildVertex_eq hg hu hs, start_singletons _ hu.le]; rfl)
    hkeep σ (fun _ => {}) _ hsized (by rw [flatten_singletons, hsized.biasParams]; simp)
  rw [flatten_singletons] at hparams
  rw [build_eq_loop]
  generalize parallelFor (buildVertex graph bias) σ.steps (fun _ => {}) _ = built at *
  obtain ⟨aliasArena, cumsumArena, cumsumOffsets, trunkSizes, biasParams⟩ := built
  obtain ⟨hsizes, hoffsets, -, -, -, -⟩ := hfinal
  simp only at halias hcumsum hparams hsizes hoffsets
  rw [halias, hcumsum, hparams, hsizes, hoffsets]
  rfl

/-! ### What the accessors read -/

include hu in
theorem trunkSizeOf_tables : (tables graph bias minTrunkSize).trunkSizeOf u = vertexTrunkSize graph minTrunkSize u := by
  simp [trunkSizeOf, tables, List.getD_eq_getElem?_getD, hu]

include hu in
theorem biasParamsOf_tables (hD : 0 < graph.degree u) : (tables graph bias minTrunkSize).biasParamsOf bias u =
    bias.computePerVertexParams (graph.timestampsOf u) := by
  simp [biasParamsOf, tables, List.getD_eq_getElem?_getD, hu, vertexParams, hD.ne']

include hg hu in
theorem cumsumOffsets_tables : (tables graph bias minTrunkSize).cumsumOffsets.getD (u + 1) 0 =
    (tables graph bias minTrunkSize).cumsumOffsets.getD u 0 +
      numTrunks (graph.degree u) (vertexTrunkSize graph minTrunkSize u) := by
  have hlen : u < ((List.range graph.numVertices).map (cumsumBlock graph bias minTrunkSize)).length := by
    simpa using hu
  rw [← start_cumsumBlocks hg hu.le, ← start_cumsumBlocks hg hu, start_succ _ u hlen, List.getElem_map,
    List.getElem_range, length_cumsumBlock hg hu]

include hg hu in
theorem trunkCumsumsOf_tables : (tables graph bias minTrunkSize).trunkCumsumsOf u =
    cumsumBlock graph bias minTrunkSize u := by
  have hlen : u < ((List.range graph.numVertices).map (cumsumBlock graph bias minTrunkSize)).length := by
    simpa using hu
  have hslice := slice_flatten _ u hlen
  rw [List.getElem_map, List.getElem_range, start_cumsumBlocks hg hu.le, length_cumsumBlock hg hu] at hslice
  rw [trunkCumsumsOf, cumsumOffsets_tables hg hu, Nat.add_sub_cancel_left]
  exact hslice

include hg hu in
theorem aliasViewOfTrunk_tables {i : Nat} (hi : i < numTrunks (graph.degree u) (vertexTrunkSize graph minTrunkSize u)) :
    (tables graph bias minTrunkSize).aliasViewOfTrunk graph u i =
      voseTable (trunkWeights (vertexWeights graph bias u) (vertexTrunkSize graph minTrunkSize u) i) := by
  have hws : (vertexWeights graph bias u).length = graph.degree u := length_vertexWeights hg hu
  have hD : 0 < graph.degree u := by
    by_contra hzero
    rw [numTrunks, if_neg hzero] at hi
    omega
  set T := vertexTrunkSize graph minTrunkSize u with hT
  have hTpos : 0 < T := vertexTrunkSize_pos hD
  have hlo : i * T ≤ graph.degree u := (lo_lt hTpos hi).le
  -- the vertex' slice of the arena is its block, the trunk's slice of that its table
  have hlen : u < ((List.range graph.numVertices).map (aliasBlock graph bias minTrunkSize)).length := by
    simpa using hu
  have hvertex := slice_flatten _ u hlen
  rw [List.getElem_map, List.getElem_range, start_aliasBlocks hg hu.le, length_aliasBlock hg hu] at hvertex
  have htables : i < (trunkTables (vertexWeights graph bias u) T).length := by simpa [trunkTables, hws] using hi
  have htrunk := slice_flatten _ i htables
  rw [start_trunkTables hTpos (by rw [hws]; exact hi.le), hws, Nat.min_eq_left hlo] at htrunk
  have hget : (trunkTables (vertexWeights graph bias u) T)[i] =
      voseTable (trunkWeights (vertexWeights graph bias u) T i) := by simp [trunkTables]
  rw [hget, length_voseTable, length_trunkWeights (by rw [hws]; exact hlo), hws] at htrunk
  have hsize : (tables graph bias minTrunkSize).trunkSizes.getD u 0 = T := trunkSizeOf_tables hu
  unfold aliasViewOfTrunk
  dsimp only
  rw [hsize, ← slice_slice _ _ (graph.degree u) _ _ (lo_add_trunkLength_le hlo), ← htrunk]
  congr 1

end build

end Pat

end Tea
