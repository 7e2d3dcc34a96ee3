import Tea.Sampling.Neighborhood
import Tea.Tables.Hpat
import Tea.Tables.Pat
import Mathlib.Algebra.Order.BigOperators.Group.List
import Mathlib.Tactic.Ring
/-!
# The memory of the tables

How many entries the tables of a graph hold and how many bytes they report. `Pat` has one alias entry per stored edge and
at most `⌈√D⌉` sums for a vertex of degree `D`; `Hpat` has, up to a factor of two, an alias entry per edge and level, and
exactly `2 * D - popcount D` totals for a vertex with levels; the auxiliary index takes what was projected and never more
than its budget; the neighbor sets take two cells per edge at most (`tables_footprint`).
-/

namespace Tea

open Layout Arith

variable {R P : Type}

/-! ### Memory accounting -/

namespace Pat

def aliasEntryCount (pat : Pat R P) : Nat := pat.aliasArena.length

def cumsumEntryCount (pat : Pat R P) : Nat := pat.cumsumArena.length

/-- `memory_bytes`, with `paramsBytes` for `sizeof(PerVertexParams)`. -/
def memoryBytes (pat : Pat R P) (paramsBytes : Nat) : Nat :=
  pat.aliasArena.length * 8 + pat.cumsumArena.length * 8 + pat.cumsumOffsets.length * 8 + pat.trunkSizes.length * 4 +
    pat.biasParams.length * paramsBytes

end Pat

namespace AuxIndex

def memoryBytes (self : AuxIndex) : Nat :=
  if !self.active then 0
  else self.vertexLOffsetBase.length * 8 + self.LOffsetArena.length * 8 + self.entries.length * 8

def entryCount (self : AuxIndex) : Nat := self.entries.length

end AuxIndex

namespace Hpat

def aliasEntryCount (hpat : Hpat R P) : Nat := hpat.aliasArena.length

def trunkCount (hpat : Hpat R P) : Nat := hpat.trunkTotals.length

/-- `memory_bytes`, with `paramsBytes` for `sizeof(PerVertexParams)`. -/
def memoryBytes (hpat : Hpat R P) (paramsBytes : Nat) : Nat :=
  hpat.aliasArena.length * 8 + hpat.trunkTotals.length * 8 + hpat.aliasOffsets.length * 8 +
    hpat.totalsOffsets.length * 8 + hpat.kMax.length * 4 + hpat.isSolo.length * 1 + hpat.biasParams.length * paramsBytes +
    hpat.auxIndex.memoryBytes

end Hpat

namespace NeighborSets

def totalNeighborCount (self : NeighborSets) : Nat := self.offsets.getLastD 0

def memoryBytes (self : NeighborSets) : Nat := self.neighbors.length * 4 + self.offsets.length * 8

end NeighborSets

/-! ### Sums over the degrees -/

namespace TemporalGraph

/-- The sum of `f` over the degrees of the vertices. -/
def degreeSum (graph : TemporalGraph) (f : Nat → Nat) : Nat :=
  (((List.range graph.numVertices).map graph.degree).map f).sum

variable {graph : TemporalGraph} {f g : Nat → Nat}

theorem degreeSum_mono (h : ∀ d, f d ≤ g d) : graph.degreeSum f ≤ graph.degreeSum g :=
  List.sum_le_sum fun d _ => h d

theorem degreeSum_mul (k : Nat) : graph.degreeSum (fun d => k * f d) = k * graph.degreeSum f :=
  List.sum_map_mul_left _ f k

theorem numEdges_build (S : StdSort) (self : TemporalGraph) {edges : List Edge} {numVertices : Int} {isDirected : Bool}
    (σ : Schedule edges isDirected) (hin : EndpointsIn edges (vertexCount edges numVertices)) :
    (build S self edges numVertices isDirected σ).numEdges = if isDirected then edges.length else 2 * edges.length := by
  rw [build_eq_ofAdj S self numVertices σ hin, numEdges_ofAdj, σ.length_adjacency_flatten S hin]

end TemporalGraph

/-! ### Sizes for one degree -/

section sizes

variable {D : Nat}

theorem le_ceilSqrt_mul_self (D : Nat) : D ≤ ceilSqrt D * ceilSqrt D := by
  unfold ceilSqrt
  split_ifs with hsquare
  · exact hsquare.ge
  · exact (Nat.lt_succ_sqrt D).le

theorem numTrunks_trunkSize_le (minTrunkSize : Int) (D : Nat) :
    numTrunks D (trunkSize minTrunkSize D) ≤ ceilSqrt D := by
  rcases Nat.eq_zero_or_pos D with rfl | hD
  · exact Nat.zero_le _
  · have hT := trunkSize_pos minTrunkSize hD
    obtain ⟨-, hlast, -⟩ := numTrunks_spec hD hT
    have hsize : ceilSqrt D ≤ trunkSize minTrunkSize D ∨ trunkSize minTrunkSize D = D := by
      unfold trunkSize
      rw [if_neg hD.ne']
      dsimp only
      split_ifs <;> omega
    have hroot := le_ceilSqrt_mul_self D
    have hpos : 0 < ceilSqrt D := by
      by_contra hzero
      rw [Nat.eq_zero_of_not_pos hzero] at hroot
      omega
    -- the trunks before the last are shorter than all `D` positions
    by_contra hmany
    rcases hsize with hsize | hsize
    · have := Nat.mul_le_mul (show ceilSqrt D ≤ numTrunks D (trunkSize minTrunkSize D) - 1 by omega) hsize
      omega
    · have := Nat.mul_le_mul_right D (show 1 ≤ numTrunks D (trunkSize minTrunkSize D) - 1 by omega)
      rw [hsize] at hlast this
      omega

theorem shiftRight_succ_bit (D k : Nat) : 2 * (D >>> (k + 1)) + (if D.testBit k then 1 else 0) = D >>> k := by
  rw [Nat.testBit_eq_decide_div_mod_eq, Nat.shiftRight_eq_div_pow, Nat.shiftRight_eq_div_pow, Nat.pow_succ,
    ← Nat.div_div_eq_div_mul]
  simp only [decide_eq_true_eq]
  split_ifs <;> omega

theorem hpatTotalsLevelOffset_add (D k : Nat) :
    hpatTotalsLevelOffset D k + (List.range k).countP D.testBit + 2 * (D >>> k) = 2 * D := by
  induction k with
  | zero => simp [hpatTotalsLevelOffset]
  | succ k ih =>
      have hbit := shiftRight_succ_bit D k
      have hoffset : hpatTotalsLevelOffset D (k + 1) = hpatTotalsLevelOffset D k + D >>> k := by
        simp [hpatTotalsLevelOffset, List.range_succ]
      have hcount : (List.range (k + 1)).countP D.testBit =
          (List.range k).countP D.testBit + if D.testBit k then 1 else 0 := by
        simp [List.range_succ, List.countP_append, List.countP_cons]
      omega

/-- A vertex with levels has as many trunks as its edges and half-edges, less one for every set bit of its degree. -/
theorem hpatTrunksPerVertex_add (D : Nat) : hpatTrunksPerVertex D + popcount D = 2 * D := by
  rcases Nat.eq_zero_or_pos D with rfl | hD
  · rfl
  · have h := hpatTotalsLevelOffset_add D (D.log2 + 1)
    rw [Nat.shiftRight_eq_div_pow, Nat.div_eq_of_lt Nat.lt_log2_self] at h
    rw [hpatTrunksPerVertex, if_neg hD.ne']
    exact h

theorem level_bounds {k : Nat} (hD : 0 < D) (hk : k ≤ D.log2) : D ≤ 2 * ((D >>> k) <<< k) ∧ (D >>> k) <<< k ≤ D := by
  have hpow : 2 ^ k ≤ D := (Nat.pow_le_pow_right Nat.two_pos hk).trans (Nat.log2_self_le hD.ne')
  have hone : 1 ≤ D / 2 ^ k := Nat.div_pos hpow (Nat.two_pow_pos k)
  have hmul := Nat.mul_le_mul_right (2 ^ k) hone
  have hrest := Nat.lt_div_mul_add (a := D) (Nat.two_pow_pos k)
  rw [Nat.shiftLeft_eq, Nat.shiftRight_eq_div_pow]
  exact ⟨by omega, Nat.div_mul_le_self D _⟩

theorem hpatAliasEntriesPerVertex_bounds (D : Nat) : D * (D.log2 + 1) ≤ 2 * hpatAliasEntriesPerVertex D ∧
    hpatAliasEntriesPerVertex D ≤ D * (D.log2 + 1) := by
  rcases Nat.eq_zero_or_pos D with rfl | hD
  · decide
  · have hlevels : ∀ x ∈ (List.range (D.log2 + 1)).map fun k => (D >>> k) <<< k, D ≤ 2 * x ∧ x ≤ D := by
      intro x hx
      obtain ⟨k, hk, rfl⟩ := List.mem_map.mp hx
      exact level_bounds hD (Nat.le_of_lt_succ (List.mem_range.mp hk))
    rw [hpatAliasEntriesPerVertex, if_neg hD.ne', ← List.sum_map_mul_left]
    constructor
    · have h := List.card_nsmul_le_sum (((List.range (D.log2 + 1)).map fun k => (D >>> k) <<< k).map fun x => 2 * x) D
        fun y hy => by
          obtain ⟨x, hx, rfl⟩ := List.mem_map.mp hy
          exact (hlevels x hx).1
      simpa [Nat.mul_comm, Function.comp_def] using h
    · have h := List.sum_le_card_nsmul _ D fun x hx => (hlevels x hx).2
      simpa [Nat.mul_comm] using h

theorem popcount_le_log2 (L : Nat) : popcount L ≤ L.log2 + 1 := by
  simpa [popcount] using List.countP_le_length (p := L.testBit) (l := List.range (L.log2 + 1))

/-- The cells and the entries of the index for a vertex of degree `D`. -/
def indexCells (D : Nat) : Nat := if soloOfDegree D then 0 else D + 1

def indexEntries (D : Nat) : Nat :=
  if soloOfDegree D then 0 else ((List.range D).map fun i => popcount (i + 1)).sum

theorem indexEntries_le (D : Nat) : indexEntries D ≤ if D ≤ kHpatDegreeThreshold then 0 else D * (D.log2 + 1) := by
  unfold indexEntries
  rcases Nat.eq_zero_or_pos D with rfl | hD
  · simp
  · by_cases hsolo : D ≤ kHpatDegreeThreshold
    · simp [soloOfDegree, hD, hsolo]
    · rw [if_neg hsolo, if_neg (by simp [soloOfDegree, hsolo])]
      have h := List.sum_le_card_nsmul ((List.range D).map fun i => popcount (i + 1)) (D.log2 + 1) fun x hx => by
        obtain ⟨i, hi, rfl⟩ := List.mem_map.mp hx
        have hlt : i + 1 ≤ D := List.mem_range.mp hi
        refine (popcount_le_log2 (i + 1)).trans (Nat.succ_le_succ ?_)
        exact (Nat.le_log2 hD.ne').mpr ((Nat.log2_self_le (Nat.succ_ne_zero i)).trans hlt)
      simpa using h

end sizes

/-! ### The tables of a graph -/

/-- What `Pat` holds and reports. -/
structure Pat.Footprint (graph : TemporalGraph) (pat : Pat R P) : Prop where
  aliasEntries : pat.aliasEntryCount = graph.numEdges
  cumsumEntries : pat.cumsumEntryCount ≤ graph.degreeSum ceilSqrt
  bytes : ∀ paramsBytes, pat.memoryBytes paramsBytes =
    8 * graph.numEdges + 8 * pat.cumsumEntryCount + 8 * (graph.numVertices + 1) + (4 + paramsBytes) * graph.numVertices

/-- What `Hpat` holds and reports. -/
structure Hpat.Footprint (graph : TemporalGraph) (hpat : Hpat R P) : Prop where
  aliasEntries_ge : graph.degreeSum (fun d => if d ≤ kHpatDegreeThreshold then 2 * d else d * (d.log2 + 1)) ≤
    2 * hpat.aliasEntryCount
  aliasEntries_le : hpat.aliasEntryCount ≤
    graph.degreeSum fun d => if d ≤ kHpatDegreeThreshold then d else d * (d.log2 + 1)
  trunks : hpat.trunkCount = graph.degreeSum fun d => if d ≤ kHpatDegreeThreshold then 0 else 2 * d - popcount d
  bytes : ∀ paramsBytes, hpat.memoryBytes paramsBytes =
    8 * hpat.aliasEntryCount + 8 * hpat.trunkCount + 16 * (graph.numVertices + 1) +
      (5 + paramsBytes) * graph.numVertices + hpat.auxIndex.memoryBytes

/-- The bytes that `build` projects for the index. -/
def AuxIndex.projectedBytes (graph : TemporalGraph) : Nat :=
  bytesNeeded graph.numVertices (graph.degreeSum indexCells) (graph.degreeSum indexEntries)

/-- The index is there exactly if it fits the budget, and takes what was projected. -/
structure AuxIndex.Footprint (graph : TemporalGraph) (auxBudgetBytes : Nat) (aux : AuxIndex) : Prop where
  active_iff : aux.active = true ↔ projectedBytes graph ≤ auxBudgetBytes
  bytes : aux.memoryBytes = if aux.active then projectedBytes graph else 0
  bytes_le : aux.memoryBytes ≤ auxBudgetBytes
  entries_le : aux.entryCount ≤ graph.degreeSum fun d => if d ≤ kHpatDegreeThreshold then 0 else d * (d.log2 + 1)

/-- Two cells an edge, whether or not the edges are directed. -/
structure NeighborSets.Footprint (edges : List Edge) (n : Nat) (sets : NeighborSets) : Prop where
  neighborCount : sets.totalNeighborCount = sets.neighbors.length
  neighborCount_le : sets.totalNeighborCount ≤ 2 * edges.length
  bytes_le : sets.memoryBytes ≤ 8 * edges.length + 8 * (n + 1)

section graph

variable {graph : TemporalGraph} (hg : graph.WellFormed)

include hg

theorem Pat.footprint_tables [Arith R] (bias : Bias R P) (minTrunkSize : Int) :
    (Pat.tables graph bias minTrunkSize).Footprint graph := by
  have halias : (tables graph bias minTrunkSize).aliasArena.length = graph.numEdges := by
    rw [tables, List.length_flatten, map_length_aliasBlocks hg, hg.numEdges_eq]
  constructor
  case aliasEntries => exact halias
  case cumsumEntries =>
    rw [cumsumEntryCount, tables, List.length_flatten, map_length_cumsumBlocks hg, TemporalGraph.degreeSum, List.map_map]
    exact List.sum_le_sum fun u _ => numTrunks_trunkSize_le minTrunkSize (graph.degree u)
  case bytes =>
    intro paramsBytes
    rw [memoryBytes, halias, cumsumEntryCount]
    simp only [tables, length_exclusiveScan, List.length_map, List.length_range]
    ring

theorem Hpat.footprint_tables [Arith R] (bias : Bias R P) (aux : AuxIndex) :
    (Hpat.tables graph bias aux).Footprint graph := by
  have halias : (tables graph bias aux).aliasEntryCount = graph.degreeSum aliasCells := by
    rw [aliasEntryCount, tables, List.length_flatten, map_length_aliasBlocks hg, TemporalGraph.degreeSum]
  have htotals : (tables graph bias aux).trunkCount = graph.degreeSum totalsCells := by
    rw [trunkCount, tables, List.length_flatten, map_length_totalsBlocks hg, TemporalGraph.degreeSum]
  constructor
  case aliasEntries_ge =>
    rw [halias, ← TemporalGraph.degreeSum_mul]
    refine TemporalGraph.degreeSum_mono fun d => ?_
    have hbounds := hpatAliasEntriesPerVertex_bounds d
    unfold aliasCells
    split_ifs <;> omega
  case aliasEntries_le =>
    rw [halias]
    refine TemporalGraph.degreeSum_mono fun d => ?_
    have hbounds := hpatAliasEntriesPerVertex_bounds d
    unfold aliasCells
    split_ifs <;> omega
  case trunks =>
    rw [htotals]
    congr 1
    funext d
    have hexact := hpatTrunksPerVertex_add d
    unfold totalsCells
    split_ifs <;> omega
  case bytes =>
    intro paramsBytes
    rw [memoryBytes, aliasEntryCount, trunkCount]
    simp only [tables, length_exclusiveScan, List.length_map, List.length_range]
    ring

omit hg in
theorem AuxIndex.auxOf_footprint (auxBudgetBytes : Nat) :
    (Hpat.auxOf graph auxBudgetBytes).Footprint graph auxBudgetBytes := by
  set kMax := ((List.range graph.numVertices).map graph.degree).map kMaxOfDegree with hkMax
  set isSolo := some (((List.range graph.numVertices).map graph.degree).map soloOfDegree) with hisSolo
  have hsolo : ∀ u < graph.numVertices, soloAt isSolo u = soloOfDegree (graph.degree u) := by
    intro u hu
    simp [hisSolo, soloAt, List.getD_eq_getElem?_getD, hu]
  have hreach : LevelsReach graph kMax isSolo := by
    intro u hu hflag
    have hlevel : kMax.getD u 0 = kMaxOfDegree (graph.degree u) := by
      simp [hkMax, List.getD_eq_getElem?_getD, hu]
    rw [hlevel]
    exact Hpat.lt_two_pow_levels ((hsolo u hu).symm.trans hflag)
  have hcells : (allCovers graph kMax isSolo).length = graph.degreeSum indexCells := by
    rw [← cumL_eq, TemporalGraph.degreeSum, List.map_map]
    congr 1
    refine List.map_congr_left fun u hu => ?_
    rw [lCells, hsolo u (List.mem_range.mp hu)]
    rfl
  have hentries : (allCovers graph kMax isSolo).flatten.length = graph.degreeSum indexEntries := by
    rw [← cumE_eq hreach, TemporalGraph.degreeSum, List.map_map]
    congr 1
    refine List.map_congr_left fun u hu => ?_
    rw [reserved, hsolo u (List.mem_range.mp hu)]
    rfl
  have haux : Hpat.auxOf graph auxBudgetBytes =
      if auxBudgetBytes < projectedBytes graph then {} else index graph kMax isSolo := by
    rw [projectedBytes, ← hcells, ← hentries]
    rfl
  have hbytes : (index graph kMax isSolo).memoryBytes = projectedBytes graph := by
    rw [projectedBytes, ← hcells, ← hentries, memoryBytes, bytesNeeded]
    simp [index]
  rw [haux]
  split_ifs with hbudget
  · exact ⟨by simp [hbudget], rfl, Nat.zero_le _, Nat.zero_le _⟩
  · have hfits : projectedBytes graph ≤ auxBudgetBytes := Nat.le_of_not_lt hbudget
    refine ⟨iff_of_true rfl hfits, hbytes, hbytes ▸ hfits, ?_⟩
    exact hentries.le.trans (TemporalGraph.degreeSum_mono indexEntries_le)

end graph

theorem NeighborSets.ofGraph_footprint (S : StdSort) (self : TemporalGraph) {edges : List Edge} {numVertices : Int}
    {isDirected : Bool} (σ : Schedule edges isDirected) (hin : EndpointsIn edges (vertexCount edges numVertices)) :
    let graph := TemporalGraph.build S self edges numVertices isDirected σ
    (ofGraph graph isDirected).Footprint edges graph.numVertices := by
  intro graph
  obtain ⟨-, hn, hs⟩ := build_walkable S self σ hin
  let undirected := TemporalGraph.build S self edges numVertices false (Schedule.serial edges false)
  obtain ⟨hg', hn', hs'⟩ := build_walkable S self (Schedule.serial edges false) hin
  have hsame : ofGraph graph isDirected = ofGraph undirected false :=
    ofGraph_congr (hn.trans hn'.symm) hs hs' (hn ▸ hin)
  have hcount : (ofGraph undirected false).neighbors.length ≤ 2 * edges.length := by
    have hedges : undirected.numEdges = 2 * edges.length :=
      TemporalGraph.numEdges_build S self (Schedule.serial edges false) hin
    rw [ofGraph, List.length_flatten, List.map_map, ← hedges, hg'.numEdges_eq]
    refine List.sum_le_sum fun u hu => ?_
    refine (length_sortUnique_le _).trans ?_
    rw [if_neg Bool.false_ne_true, List.append_nil]
    exact (hg'.length_targets u (List.mem_range.mp hu)).le
  have hlast : (ofGraph undirected false).totalNeighborCount = (ofGraph undirected false).neighbors.length := by
    rw [totalNeighborCount, ofGraph, getLastD_exclusiveScan, List.length_flatten]
  have hoffsets : (ofGraph undirected false).offsets.length = graph.numVertices + 1 := by
    rw [show graph.numVertices = undirected.numVertices from hn.trans hn'.symm]
    simp [ofGraph]
  rw [hsame]
  refine ⟨hlast, hlast ▸ hcount, ?_⟩
  rw [memoryBytes, hoffsets]
  omega

/-- **The memory of the tables of a built graph**, whatever the objects held before and however the threads ran. -/
theorem tables_footprint [Arith R] (S : StdSort) (self : TemporalGraph) {edges : List Edge} {numVertices : Int}
    {isDirected : Bool} (σ : Schedule edges isDirected) (hin : EndpointsIn edges (vertexCount edges numVertices)) :
    let graph := TemporalGraph.build S self edges numVertices isDirected σ
    graph.numEdges = (if isDirected then edges.length else 2 * edges.length) ∧
    (∀ (pat : Pat R P) bias minTrunkSize σ', (pat.build graph bias minTrunkSize σ').Footprint graph) ∧
    (∀ (hpat : Hpat R P) bias auxBudgetBytes σ' σ'', let built := hpat.build graph bias auxBudgetBytes σ' σ''
      built.Footprint graph ∧ (0 < auxBudgetBytes → built.auxIndex.Footprint graph auxBudgetBytes) ∧
        (auxBudgetBytes = 0 → built.auxIndex = hpat.auxIndex)) ∧
    ∀ (sets : NeighborSets) τ, (sets.build graph isDirected τ).Footprint edges graph.numVertices := by
  intro graph
  have hg : graph.WellFormed := TemporalGraph.build_wellFormed S self σ hin
  refine ⟨TemporalGraph.numEdges_build S self σ hin, fun pat bias minTrunkSize σ' => ?_,
    fun hpat bias auxBudgetBytes σ' σ'' => ?_, fun sets τ => ?_⟩
  · rw [Pat.build_eq hg]
    exact Pat.footprint_tables hg bias minTrunkSize
  · intro built
    have hbuilt : built = _ := Hpat.build_eq hg hpat auxBudgetBytes σ' σ''
    rw [hbuilt]
    refine ⟨Hpat.footprint_tables hg bias _, fun hpos => ?_, fun hzero => ?_⟩
    · show (if 0 < auxBudgetBytes then _ else hpat.auxIndex).Footprint graph auxBudgetBytes
      rw [if_pos hpos]
      exact AuxIndex.auxOf_footprint auxBudgetBytes
    · show (if 0 < auxBudgetBytes then _ else hpat.auxIndex) = hpat.auxIndex
      rw [if_neg (by omega)]
  · rw [NeighborSets.build_eq hg]
    exact NeighborSets.ofGraph_footprint S self σ hin

/-- A vertex with levels: the index of its hundred edges keeps to a budget of four kilobytes. -/
theorem tables_footprint_hundred :
    let graph := TemporalGraph.build StdSort.stable {} (List.replicate 100 ⟨0, 1, 5⟩) 2 true (Schedule.serial _ true)
    ((Hpat.build {} graph uniformBias 4096 (ForSchedule.serial _) (ForSchedule.serial _) :
      Hpat ℚ Unit)).auxIndex.Footprint graph 4096 :=
  have hin : EndpointsIn (List.replicate 100 ⟨0, 1, 5⟩) (vertexCount (List.replicate 100 ⟨0, 1, 5⟩) 2) :=
    fun e he => by simp [List.eq_of_mem_replicate he, vertexCount]
  ((tables_footprint StdSort.stable {} (Schedule.serial _ true) hin).2.2.1 {} uniformBias 4096 (ForSchedule.serial _)
    (ForSchedule.serial _)).2.1 (by decide)

end Tea
