import Mathlib.Algebra.Field.Rat
import Mathlib.Algebra.Order.BigOperators.Group.List
import Mathlib.Algebra.Order.Floor.Div
import Mathlib.Algebra.Order.Ring.Rat
import Tea.Lib.Regions
import Tea.Tables.Pat
/-!
# The layout of the trunk tables

The trunks of a vertex tile its positions, so their tables fill the vertex' slice of the graph's own offsets, and the
running sums of all vertices lie one behind the other. `tableWrites` and `sumWrites` are what the build writes
(`buildVertex_writes`). In exact arithmetic the running sum of trunk `i` is the weight of all positions before its end,
which is what lets a sampler cut a prefix of `G` positions into `G / T` full trunks and a rest inside one trunk.
-/

namespace Tea

open Layout Arith

/-! ### Trunk sizes -/

theorem trunkSize_le (minTrunkSize : Int) (D : Nat) : trunkSize minTrunkSize D ≤ D := by
  unfold trunkSize
  dsimp only
  split_ifs <;> omega

section trunks

variable {D T : Nat}

theorem numTrunks_eq_ceilDiv (hD : 0 < D) : numTrunks D T = D ⌈/⌉ T := by
  rw [numTrunks, if_pos hD, Nat.ceilDiv_eq_add_pred_div]

/-- The positions of trunk `i`. -/
def trunkRegion (D T i : Nat) : Region := ⟨i * T, trunkLength D T i⟩

/-- **The trunks tile the positions.** -/
theorem tiles_trunks (hT : 0 < T) (m : Nat) (hm : m ≤ numTrunks D T) :
    Tiles 0 ((List.range m).map (trunkRegion D T)) (min (m * T) D) := by
  induction m with
  | zero => simp [Tiles]
  | succ m ih =>
      have hlo : m * T ≤ D := (lo_lt hT hm).le
      rw [List.range_succ, List.map_append, List.map_singleton]
      refine (ih (by omega)).append ⟨?_, ?_⟩
      · exact (Nat.min_eq_left hlo).symm
      · show min (m * T) D + trunkLength D T m = min ((m + 1) * T) D
        rw [Nat.min_eq_left hlo, lo_add_trunkLength hlo]

theorem trunkLength_of_succ_lt (hT : 0 < T) {i : Nat} (hi : i + 1 < numTrunks D T) : trunkLength D T i = T :=
  trunkLength_of_le (lo_lt hT hi).le

/-- How a prefix of `G` positions is cut: full trunks, and a rest inside the next one. -/
theorem prefix_split (hT : 0 < T) {G : Nat} (hG : G ≤ D) :
    (∀ i < G / T, i < numTrunks D T ∧ trunkLength D T i = T) ∧ G / T * T + G % T = G ∧
      (G % T ≠ 0 → G / T < numTrunks D T ∧ G % T ≤ trunkLength D T (G / T)) := by
  have hsplit : G / T * T + G % T = G := by
    rw [Nat.mul_comm]
    exact Nat.div_add_mod G T
  have hmod := Nat.mod_lt G hT
  have hnum : ∀ i, i * T < D → i < numTrunks D T := by
    intro i hi
    have hD : 0 < D := by omega
    by_contra hge
    have hle : numTrunks D T * T ≤ i * T := Nat.mul_le_mul_right T (by omega)
    have := (numTrunks_spec hD hT).2.2
    omega
  refine ⟨fun i hi => ?_, hsplit, fun hrest => ?_⟩
  · have hend : (i + 1) * T ≤ G / T * T := Nat.mul_le_mul_right T hi
    have hlo : i * T < (i + 1) * T := Nat.mul_lt_mul_of_pos_right (Nat.lt_succ_self i) hT
    exact ⟨hnum i (by omega), trunkLength_of_le (by omega)⟩
  · have hlt : G / T * T < D := by omega
    refine ⟨hnum _ hlt, ?_⟩
    unfold trunkLength
    rw [Nat.succ_mul]
    omega

end trunks

namespace Pat

/-! ### The writes of a vertex -/

section writes

variable {R P : Type} [Arith R]

/-- What the trunk loop writes into `alias_arena_` in its first `k` iterations. -/
def trunkTableWrites (ws : List R) (T aliasOff k : Nat) : List (Region × List (AliasEntry R)) :=
  (List.range k).map fun i => (⟨aliasOff + i * T, trunkLength ws.length T i⟩, voseTable (trunkWeights ws T i))

/-- What the trunk loop writes into `cumsum_arena_` in its first `k` iterations. -/
def trunkSumWrites (ws : List R) (T cumsumOff k : Nat) : List (Region × List R) :=
  (List.range k).map fun i => (⟨cumsumOff + i, 1⟩, [((trunkTotals ws T).take (i + 1)).foldl (· + ·) 0])

/-- What building vertex `u` writes into `alias_arena_`. -/
def tableWrites (pat : Pat R P) (graph : TemporalGraph) (bias : Bias R P) (u : Nat) :
    List (Region × List (AliasEntry R)) :=
  if graph.degree u = 0 then []
  else trunkTableWrites (vertexWeights graph bias u) (pat.trunkSizes.getD u 0) (graph.offsetOf u)
    (numTrunks (graph.degree u) (pat.trunkSizes.getD u 0))

/-- What building vertex `u` writes into `cumsum_arena_`. -/
def sumWrites (pat : Pat R P) (graph : TemporalGraph) (bias : Bias R P) (u : Nat) : List (Region × List R) :=
  if graph.degree u = 0 then []
  else trunkSumWrites (vertexWeights graph bias u) (pat.trunkSizes.getD u 0) (pat.cumsumOffsets.getD u 0)
    (numTrunks (graph.degree u) (pat.trunkSizes.getD u 0))

/-- **The trunk loop performs these writes.** -/
theorem foldl_stampTrunk_writes (ws : List R) {T : Nat} (hT : 0 < T) (aliasOff cumsumOff : Nat) (s : Stamping R)
    (k : Nat) (hk : k ≤ numTrunks ws.length T) (halias : aliasOff + ws.length ≤ s.aliasArena.length)
    (hcumsum : cumsumOff + numTrunks ws.length T ≤ s.cumsumArena.length) (hrunning : s.running = 0) :
    let s' := (List.range k).foldl (stampTrunk ws ws.length T aliasOff cumsumOff) s
    s'.aliasArena = writeRegions s.aliasArena (trunkTableWrites ws T aliasOff k) ∧
      s'.cumsumArena = writeRegions s.cumsumArena (trunkSumWrites ws T cumsumOff k) := by
  induction k with
  | zero => exact ⟨rfl, rfl⟩
  | succ k ih =>
      have hk' : k < numTrunks ws.length T := hk
      obtain ⟨htables, hsums⟩ := ih hk'.le
      obtain ⟨harena, hcells, hrun⟩ := foldl_stampTrunk ws hT aliasOff cumsumOff s k hk'.le halias hcumsum hrunning
      rw [List.range_succ, List.foldl_append, List.foldl_cons, List.foldl_nil]
      set s₀ := (List.range k).foldl (stampTrunk ws ws.length T aliasOff cumsumOff) s
      have hlo : k * T ≤ ws.length := (lo_lt hT hk').le
      have hdone : ((trunkTables ws T).take k).flatten.length = k * T := by
        rw [← start_eq, start_trunkTables hT hk'.le, Nat.min_eq_left hlo]
      have hlen : s₀.aliasArena.length = s.aliasArena.length := by
        rw [harena, length_splice (by omega)]
      have hlen' : s₀.cumsumArena.length = s.cumsumArena.length := by
        have hsize : (Arith.cumsum 0 ((trunkTotals ws T).take k)).length ≤ numTrunks ws.length T := by
          simp [trunkTotals]
        rw [hcells, length_splice (by omega)]
      have hrunning' : ((trunkTotals ws T).take (k + 1)).foldl (· + ·) 0 =
          s₀.running + Arith.sum (trunkWeights ws T k) := by
        rw [take_succ_trunkTotals hk', List.foldl_append, List.foldl_cons, List.foldl_nil, hrun]
      obtain ⟨scratch, hstep⟩ := stampTrunk_eq hT aliasOff cumsumOff s₀ hk' (by rwa [hlen])
      rw [hstep, trunkTableWrites, trunkSumWrites, List.range_succ, List.map_append, List.map_append,
        writeRegions_append, writeRegions_append, ← trunkTableWrites, ← trunkSumWrites, ← htables, ← hsums]
      constructor
      · rfl
      · show s₀.cumsumArena.set (cumsumOff + k) (s₀.running + Arith.sum (trunkWeights ws T k)) =
          splice s₀.cumsumArena (cumsumOff + k) [((trunkTotals ws T).take (k + 1)).foldl (· + ·) 0]
        rw [hrunning']
        exact set_eq_splice (by omega) _

theorem cumsum_eq_map (ws : List R) :
    Arith.cumsum 0 ws = (List.range ws.length).map fun i => (ws.take (i + 1)).foldl (· + ·) 0 := by
  apply List.ext_getElem?
  intro i
  rcases Nat.lt_or_ge i ws.length with hi | hi
  · rw [getElem?_cumsum 0 ws i hi]
    simp [hi]
  · rw [List.getElem?_eq_none (by simpa using hi), List.getElem?_eq_none (by simpa using hi)]

theorem tiles_tableWrites (ws : List R) {T : Nat} (hT : 0 < T) (aliasOff k : Nat) (hk : k ≤ numTrunks ws.length T) :
    Tiles aliasOff ((trunkTableWrites ws T aliasOff k).map Prod.fst) (aliasOff + min (k * T) ws.length) := by
  induction k with
  | zero => simp [trunkTableWrites, Tiles]
  | succ k ih =>
      have hlo : k * T ≤ ws.length := (lo_lt hT hk).le
      have hdone := ih (by omega)
      rw [trunkTableWrites] at hdone ⊢
      rw [List.range_succ, List.map_append, List.map_append, List.map_singleton, List.map_singleton]
      rw [Nat.min_eq_left hlo] at hdone
      refine hdone.append ⟨rfl, ?_⟩
      show aliasOff + k * T + trunkLength ws.length T k = aliasOff + min ((k + 1) * T) ws.length
      rw [Nat.add_assoc, lo_add_trunkLength hlo]

theorem tiles_sumWrites (ws : List R) (T cumsumOff k : Nat) :
    Tiles cumsumOff ((trunkSumWrites ws T cumsumOff k).map Prod.fst) (cumsumOff + k) := by
  induction k with
  | zero => exact rfl
  | succ k ih =>
      rw [trunkSumWrites] at ih ⊢
      rw [List.range_succ, List.map_append, List.map_append, List.map_singleton, List.map_singleton]
      exact ih.append ⟨rfl, rfl⟩

variable {graph : TemporalGraph} {bias : Bias R P} {minTrunkSize : Int} (hg : graph.WellFormed) {u : Nat}
  (hu : u < graph.numVertices)

include hg hu in
/-- **Building a vertex performs these writes and no other.** -/
theorem buildVertex_writes {pat : Pat R P} (hs : Sized graph bias minTrunkSize pat) (scratch : BuildScratch R) :
    (buildVertex graph bias u scratch pat).2.aliasArena =
        writeRegions pat.aliasArena (pat.tableWrites graph bias u) ∧
      (buildVertex graph bias u scratch pat).2.cumsumArena =
        writeRegions pat.cumsumArena (pat.sumWrites graph bias u) := by
  obtain ⟨halias, hcumsum⟩ := blocks_le hg hu hs
  have hws : (vertexWeights graph bias u).length = graph.degree u := length_vertexWeights hg hu
  have hT : pat.trunkSizes.getD u 0 = vertexTrunkSize graph minTrunkSize u := by
    simp [hs.trunkSizes, tables, List.getD_eq_getElem?_getD, hu]
  rw [length_aliasBlock hg hu] at halias
  rw [length_cumsumBlock hg hu] at hcumsum
  unfold buildVertex tableWrites sumWrites
  dsimp only
  rw [computeWeights_vertex hg hu, hT]
  rcases Nat.eq_zero_or_pos (graph.degree u) with hD | hD
  · rw [if_pos hD, if_pos hD, if_pos hD]
    exact ⟨rfl, rfl⟩
  · have hTpos : 0 < vertexTrunkSize graph minTrunkSize u := vertexTrunkSize_pos hD
    have hloop := foldl_stampTrunk_writes (vertexWeights graph bias u) hTpos (graph.offsetOf u)
      (pat.cumsumOffsets.getD u 0) ⟨pat.aliasArena, pat.cumsumArena, 0, scratch.aliasScratch⟩ _ le_rfl
      (by rw [hws]; exact halias) (by rw [hws]; exact hcumsum) rfl
    rw [hws] at hloop
    rw [if_neg hD.ne', if_neg hD.ne', if_neg hD.ne']
    exact hloop

theorem sized_withArenas {aliasArena : List (AliasEntry R)} {cumsumArena : List R}
    (halias : aliasArena.length = (tables graph bias minTrunkSize).aliasArena.length)
    (hcumsum : cumsumArena.length = (tables graph bias minTrunkSize).cumsumArena.length) :
    Sized graph bias minTrunkSize
      { tables graph bias minTrunkSize with aliasArena := aliasArena, cumsumArena := cumsumArena } := by
  refine ⟨rfl, rfl, halias, hcumsum, by simp [tables], fun u hu hD => ?_⟩
  simp [tables, hu, vertexParams, hD]

/-! ### All vertices together -/

include hg hu in
theorem tableWrites_fill : FillsBlock (graph.offsetOf u) ((tables graph bias minTrunkSize).tableWrites graph bias u)
    (aliasBlock graph bias minTrunkSize u) := by
  have hws : (vertexWeights graph bias u).length = graph.degree u := length_vertexWeights hg hu
  have hlen : (aliasBlock graph bias minTrunkSize u).length = graph.degree u := length_aliasBlock hg hu
  have hT : (tables graph bias minTrunkSize).trunkSizes.getD u 0 = vertexTrunkSize graph minTrunkSize u :=
    trunkSizeOf_tables hu
  rw [tableWrites, hT]
  rcases Nat.eq_zero_or_pos (graph.degree u) with hD | hD
  · rw [if_pos hD]
    rw [hD] at hlen
    rw [List.eq_nil_of_length_eq_zero hlen]
    exact FillsBlock.nil _
  · have hTpos : 0 < vertexTrunkSize graph minTrunkSize u := vertexTrunkSize_pos hD
    have hend := (numTrunks_spec hD hTpos).2.2
    have htiles := tiles_tableWrites (vertexWeights graph bias u) hTpos (graph.offsetOf u) _ le_rfl
    rw [hws, Nat.min_eq_right hend] at htiles
    rw [if_neg hD.ne']
    refine ⟨by rwa [hlen], fun w hw => ?_, ?_⟩
    · obtain ⟨i, hi, rfl⟩ := List.mem_map.mp hw
      have hlo := lo_lt hTpos (List.mem_range.mp hi)
      rw [length_voseTable, length_trunkWeights (by omega)]
    · rw [aliasBlock, trunkTables, hws, trunkTableWrites, List.map_map]
      rfl

include hg hu in
theorem sumWrites_fill : FillsBlock ((tables graph bias minTrunkSize).cumsumOffsets.getD u 0)
    ((tables graph bias minTrunkSize).sumWrites graph bias u) (cumsumBlock graph bias minTrunkSize u) := by
  have hws : (vertexWeights graph bias u).length = graph.degree u := length_vertexWeights hg hu
  have hlen : (cumsumBlock graph bias minTrunkSize u).length = _ := length_cumsumBlock hg hu
  have hT : (tables graph bias minTrunkSize).trunkSizes.getD u 0 = vertexTrunkSize graph minTrunkSize u :=
    trunkSizeOf_tables hu
  rw [sumWrites, hT]
  rcases Nat.eq_zero_or_pos (graph.degree u) with hD | hD
  · rw [if_pos hD]
    rw [numTrunks, if_neg (by omega)] at hlen
    rw [List.eq_nil_of_length_eq_zero hlen]
    exact FillsBlock.nil _
  · rw [if_neg hD.ne']
    refine ⟨?_, fun w hw => ?_, ?_⟩
    · rw [hlen]
      exact tiles_sumWrites _ _ _ _
    · obtain ⟨i, -, rfl⟩ := List.mem_map.mp hw
      rfl
    · have htotals : (trunkTotals (vertexWeights graph bias u) (vertexTrunkSize graph minTrunkSize u)).length =
          numTrunks (graph.degree u) (vertexTrunkSize graph minTrunkSize u) := by simp [trunkTotals, hws]
      rw [cumsumBlock, cumsum_eq_map, htotals, trunkSumWrites, List.map_map]
      exact flatten_singletons _ _

include hg hu in
theorem numTrunksOf_tables : (tables graph bias minTrunkSize).numTrunksOf u =
    numTrunks (graph.degree u) (vertexTrunkSize graph minTrunkSize u) := by
  rw [numTrunksOf, cumsumOffsets_tables hg hu, Nat.add_sub_cancel_left]

include hg in
/-- The trunks of all vertices fill the arenas, and may be written vertex by vertex in any order. -/
theorem tables_filled : let pat := tables graph bias minTrunkSize
    Fills ((List.range graph.numVertices).flatMap fun u => (pat.tableWrites graph bias u).map Prod.fst)
        pat.aliasArena.length ∧
      Fills ((List.range graph.numVertices).flatMap fun u => (pat.sumWrites graph bias u).map Prod.fst)
        pat.cumsumArena.length ∧
      ∀ order : List Nat, order.Perm (List.range graph.numVertices) →
        writeRegions (List.replicate pat.aliasArena.length ⟨0, 0⟩) (order.flatMap (pat.tableWrites graph bias)) =
            pat.aliasArena ∧
          writeRegions (List.replicate pat.cumsumArena.length 0) (order.flatMap (pat.sumWrites graph bias)) =
            pat.cumsumArena := by
  intro pat
  have halias := fills_of_blocks graph.numVertices (aliasBlock graph bias minTrunkSize) fun u hu => by
    rw [start_aliasBlocks hg hu.le]
    exact tableWrites_fill hg hu
  have hsums := fills_of_blocks graph.numVertices (cumsumBlock graph bias minTrunkSize) fun u hu => by
    rw [start_cumsumBlocks hg hu.le]
    exact sumWrites_fill hg hu
  exact ⟨halias.1, hsums.1, fun order horder => ⟨halias.2 order horder _ List.length_replicate,
    hsums.2 order horder _ List.length_replicate⟩⟩

end writes

/-! ### The running sums -/

section sums

variable {K : Type} [Field K] [LinearOrder K] {ws : List K} {T : Nat}

theorem sum_take_trunkTotals (hT : 0 < T) (m : Nat) (hm : m ≤ numTrunks ws.length T) :
    ((trunkTotals ws T).take m).sum = (ws.take (min (m * T) ws.length)).sum := by
  induction m with
  | zero => simp
  | succ m ih =>
      have hlo : m * T ≤ ws.length := (lo_lt hT hm).le
      have htake : (trunkTotals ws T).take (m + 1) = (trunkTotals ws T).take m ++ [Arith.sum (trunkWeights ws T m)] := by
        rw [List.take_succ_eq_append_getElem (by simpa [trunkTotals] using Nat.lt_of_succ_le hm)]
        simp [trunkTotals]
      rw [htake, List.sum_append, ih (by omega), List.sum_singleton, sum_exact, Nat.min_eq_left hlo,
        ← lo_add_trunkLength hlo, List.take_add, List.sum_append]
      rfl

theorem getElem?_cumsum_trunkTotals (hT : 0 < T) {i : Nat} (hi : i < numTrunks ws.length T) :
    (Arith.cumsum 0 (trunkTotals ws T))[i]? = some (ws.take (min ((i + 1) * T) ws.length)).sum := by
  have hlen : i < (Arith.cumsum 0 (trunkTotals ws T)).length := by simpa [trunkTotals] using hi
  rw [List.getElem?_eq_getElem hlen, getElem_cumsum_exact, zero_add, sum_take_trunkTotals hT _ hi]

variable [IsStrictOrderedRing K]

theorem cumsum_mono {running : K} {ts : List K} (hnonneg : ∀ t ∈ ts, 0 ≤ t) :
    (Arith.cumsum running ts).Pairwise (· ≤ ·) ∧ ∀ c ∈ Arith.cumsum running ts, running ≤ c := by
  induction ts generalizing running with
  | nil => exact ⟨List.Pairwise.nil, by simp [Arith.cumsum]⟩
  | cons t ts ih =>
      obtain ⟨hpairs, hge⟩ : (Arith.cumsum (running + t) ts).Pairwise (· ≤ ·) ∧
          ∀ c ∈ Arith.cumsum (running + t) ts, running + t ≤ c := ih fun s hs => hnonneg s (List.mem_cons_of_mem _ hs)
      have ht : running ≤ running + t := le_add_of_nonneg_right (hnonneg t (by simp))
      refine ⟨List.pairwise_cons.mpr ⟨hge, hpairs⟩, fun c hc => ?_⟩
      rcases List.mem_cons.mp hc with rfl | hc
      · exact ht
      · exact ht.trans (hge c hc)

theorem trunkTotals_nonneg (hnonneg : ∀ w ∈ ws, 0 ≤ w) : ∀ t ∈ trunkTotals ws T, 0 ≤ t := by
  intro t ht
  obtain ⟨i, -, rfl⟩ := List.mem_map.mp ht
  rw [sum_exact]
  exact List.sum_nonneg fun w hw => hnonneg w (List.mem_of_mem_drop (List.mem_of_mem_take hw))

end sums

/-! ### The layout -/

section layout

variable {K P : Type} [Field K] [LinearOrder K]

/-- The layout of a vertex with edges, in exact arithmetic: `D` is its degree, `T` its trunk size, `ws` its weights. -/
structure VertexLayout (pat : Pat K P) (graph : TemporalGraph) (bias : Bias K P) (D T : Nat) (ws : List K) (u : Nat) :
    Prop where
  size : 1 ≤ T ∧ T ≤ D
  count : pat.numTrunksOf u = D ⌈/⌉ T
  tiles : Tiles 0 ((List.range (pat.numTrunksOf u)).map (trunkRegion D T)) D
  full : ∀ i, i + 1 < pat.numTrunksOf u → trunkLength D T i = T
  regions : (pat.tableWrites graph bias u).map Prod.fst =
    (List.range (pat.numTrunksOf u)).map fun i => ⟨graph.offsetOf u + i * T, trunkLength D T i⟩
  sumRegions : (pat.sumWrites graph bias u).map Prod.fst =
    (List.range (pat.numTrunksOf u)).map fun i => ⟨pat.cumsumOffsets.getD u 0 + i, 1⟩
  view : ∀ i < pat.numTrunksOf u,
    pat.aliasViewOfTrunk graph u i = slice pat.aliasArena (graph.offsetOf u + i * T) (trunkLength D T i) ∧
      pat.aliasViewOfTrunk graph u i = voseTable (slice ws (i * T) (trunkLength D T i))
  sums : (pat.trunkCumsumsOf u).length = pat.numTrunksOf u ∧
    ∀ i < pat.numTrunksOf u, (pat.trunkCumsumsOf u)[i]? = some (ws.take (min ((i + 1) * T) D)).sum
  mono : (∀ w ∈ ws, 0 ≤ w) → (pat.trunkCumsumsOf u).Pairwise (· ≤ ·)
  split : ∀ G, 1 ≤ G → G ≤ D →
    (∀ i < G / T, i < pat.numTrunksOf u ∧ trunkLength D T i = T) ∧ G / T * T + G % T = G ∧
      (G % T ≠ 0 → G / T < pat.numTrunksOf u ∧ G % T ≤ trunkLength D T (G / T))

variable [IsStrictOrderedRing K] {graph : TemporalGraph} {bias : Bias K P} {minTrunkSize : Int} {u : Nat}

theorem vertexLayout_tables (hg : graph.WellFormed) (hu : u < graph.numVertices) (hD : 0 < graph.degree u) :
    VertexLayout (tables graph bias minTrunkSize) graph bias (graph.degree u)
      ((tables graph bias minTrunkSize).trunkSizeOf u) (vertexWeights graph bias u) u := by
  have hws : (vertexWeights graph bias u).length = graph.degree u := length_vertexWeights hg hu
  have hT : 0 < vertexTrunkSize graph minTrunkSize u := vertexTrunkSize_pos hD
  have hcount : (tables graph bias minTrunkSize).numTrunksOf u =
      numTrunks (graph.degree u) (vertexTrunkSize graph minTrunkSize u) := numTrunksOf_tables hg hu
  have hsize : (tables graph bias minTrunkSize).trunkSizes.getD u 0 = vertexTrunkSize graph minTrunkSize u :=
    trunkSizeOf_tables hu
  have hsums : (tables graph bias minTrunkSize).trunkCumsumsOf u = cumsumBlock graph bias minTrunkSize u :=
    trunkCumsumsOf_tables hg hu
  rw [trunkSizeOf_tables hu]
  refine ⟨⟨hT, trunkSize_le minTrunkSize _⟩, ?_, ?_, fun i hi => ?_, ?_, ?_, fun i hi => ⟨?_, ?_⟩, ⟨?_, fun i hi => ?_⟩,
    fun hnonneg => ?_, fun G _ hG => ?_⟩
  · rw [hcount, numTrunks_eq_ceilDiv hD]
  · have htiles := tiles_trunks hT _ (le_refl (numTrunks (graph.degree u) (vertexTrunkSize graph minTrunkSize u)))
    rw [Nat.min_eq_right (numTrunks_spec hD hT).2.2] at htiles
    rwa [hcount]
  · rw [hcount] at hi
    exact trunkLength_of_succ_lt hT hi
  · rw [tableWrites, if_neg hD.ne', trunkTableWrites, List.map_map, hsize, hws, hcount]
    rfl
  · rw [sumWrites, if_neg hD.ne', trunkSumWrites, List.map_map, hsize, hcount]
    rfl
  · unfold aliasViewOfTrunk
    dsimp only
    rw [hsize]
  · rw [hcount] at hi
    rw [aliasViewOfTrunk_tables hg hu hi, trunkWeights, hws]
  · rw [hsums, length_cumsumBlock hg hu, hcount]
  · rw [hcount, ← hws] at hi
    rw [hsums, cumsumBlock, getElem?_cumsum_trunkTotals hT hi, hws]
  · rw [hsums, cumsumBlock]
    exact (cumsum_mono (trunkTotals_nonneg hnonneg)).1
  · rw [hcount]
    exact prefix_split hT hG

end layout

/-- **The layout of the arenas**, in exact arithmetic and for every built graph, bias, minimal trunk size and schedule:
the trunks of all vertices fill the arenas without overlap, building a vertex writes its trunks whatever the arenas hold,
and the accessors of a vertex read its trunks. -/
theorem build_trunks_layout {K P : Type} [Field K] [LinearOrder K] [IsStrictOrderedRing K] (S : StdSort)
    (self : TemporalGraph) {edges : List Edge} {numVertices : Int} {isDirected : Bool} (σ : Schedule edges isDirected)
    (hin : EndpointsIn edges (vertexCount edges numVertices)) (old : Pat K P) (bias : Bias K P) (minTrunkSize : Int) :
    let graph := TemporalGraph.build S self edges numVertices isDirected σ
    ∀ τ : ForSchedule graph.numVertices,
      let pat := old.build graph bias minTrunkSize τ
      Fills ((List.range graph.numVertices).flatMap fun u => (pat.tableWrites graph bias u).map Prod.fst)
        pat.aliasArena.length ∧
      Fills ((List.range graph.numVertices).flatMap fun u => (pat.sumWrites graph bias u).map Prod.fst)
        pat.cumsumArena.length ∧
      (∀ order : List Nat, order.Perm (List.range graph.numVertices) →
        writeRegions (List.replicate pat.aliasArena.length ⟨0, 0⟩) (order.flatMap (pat.tableWrites graph bias)) =
            pat.aliasArena ∧
          writeRegions (List.replicate pat.cumsumArena.length 0) (order.flatMap (pat.sumWrites graph bias)) =
            pat.cumsumArena) ∧
      (∀ u < graph.numVertices, ∀ (scratch : BuildScratch K) (aliasArena : List (AliasEntry K)) (cumsumArena : List K),
        aliasArena.length = pat.aliasArena.length → cumsumArena.length = pat.cumsumArena.length →
        let built := (buildVertex graph bias u scratch
          { pat with aliasArena := aliasArena, cumsumArena := cumsumArena }).2
        built.aliasArena = writeRegions aliasArena (pat.tableWrites graph bias u) ∧
          built.cumsumArena = writeRegions cumsumArena (pat.sumWrites graph bias u)) ∧
      ∀ u < graph.numVertices, 0 < graph.degree u →
        VertexLayout pat graph bias (graph.degree u) (pat.trunkSizeOf u) (vertexWeights graph bias u) u := by
  intro graph τ pat
  have hg : graph.WellFormed := TemporalGraph.build_wellFormed S self σ hin
  have hpat : pat = tables graph bias minTrunkSize := build_eq hg old τ
  rw [hpat]
  obtain ⟨htables, hsums, hwrites⟩ := tables_filled (R := K) hg
  refine ⟨htables, hsums, hwrites, fun u hu scratch aliasArena cumsumArena halias hcumsum => ?_,
    fun u hu hD => vertexLayout_tables hg hu hD⟩
  exact buildVertex_writes hg hu (sized_withArenas halias hcumsum) scratch

/-- Vertex 1 has six trunks of sixteen edges and one of four, vertex 0 one of three, vertex 2 none. -/
theorem build_trunks_layout_example :
    let pat := Pat.build {} hub (uniformBias : Bias ℚ Unit) 16 (ForSchedule.serial _)
    Fills ((List.range hub.numVertices).flatMap fun u => (pat.tableWrites hub uniformBias u).map Prod.fst)
      pat.aliasArena.length ∧
    Fills ((List.range hub.numVertices).flatMap fun u => (pat.sumWrites hub uniformBias u).map Prod.fst)
      pat.cumsumArena.length ∧
    (∀ order : List Nat, order.Perm (List.range hub.numVertices) →
      writeRegions (List.replicate pat.aliasArena.length ⟨0, 0⟩) (order.flatMap (pat.tableWrites hub uniformBias)) =
          pat.aliasArena ∧
        writeRegions (List.replicate pat.cumsumArena.length 0) (order.flatMap (pat.sumWrites hub uniformBias)) =
          pat.cumsumArena) ∧
    (∀ u < hub.numVertices, ∀ (scratch : BuildScratch ℚ) (aliasArena : List (AliasEntry ℚ)) (cumsumArena : List ℚ),
      aliasArena.length = pat.aliasArena.length → cumsumArena.length = pat.cumsumArena.length →
      let built := (buildVertex hub uniformBias u scratch
        { pat with aliasArena := aliasArena, cumsumArena := cumsumArena }).2
      built.aliasArena = writeRegions aliasArena (pat.tableWrites hub uniformBias u) ∧
        built.cumsumArena = writeRegions cumsumArena (pat.sumWrites hub uniformBias u)) ∧
    VertexLayout pat hub uniformBias 3 3 (vertexWeights hub uniformBias 0) 0 ∧
    VertexLayout pat hub uniformBias 100 16 (vertexWeights hub uniformBias 1) 1 := by
  obtain ⟨hdegree₀, hdegree₁, -⟩ := degree_hub
  have hn : hub.numVertices = 3 := hub_storesInput.numVertices
  have hsize₀ : trunkSize 16 3 = 3 := by
    have h := trunkSize_eq 16 (D := 3) (by decide)
    omega
  have hsize₁ : trunkSize 16 100 = 16 := by
    have h := trunkSize_eq 16 (D := 100) (by decide)
    have hsqrt := ceilSqrt_le_iff (D := 100) (m := 16)
    omega
  have hsize : ∀ u < hub.numVertices, (Pat.build {} hub (uniformBias : Bias ℚ Unit) 16
      (ForSchedule.serial _)).trunkSizeOf u = trunkSize 16 (hub.degree u) := by
    intro u hu
    rw [build_eq hub_wellFormed]
    exact trunkSizeOf_tables hu
  have h := build_trunks_layout StdSort.stable {} (Schedule.serial hubEdges true) endpointsIn_hubEdges {}
    (uniformBias : Bias ℚ Unit) 16
  dsimp only at h ⊢
  rw [hub_eq] at h
  obtain ⟨htables, hsums, horders, hwrites, hlayout⟩ := h (ForSchedule.serial _)
  have hlayout₀ := hlayout 0 (by omega) (by omega)
  have hlayout₁ := hlayout 1 (by omega) (by omega)
  rw [hsize 0 (by omega), hdegree₀, hsize₀] at hlayout₀
  rw [hsize 1 (by omega), hdegree₁, hsize₁] at hlayout₁
  exact ⟨htables, hsums, horders, hwrites, hlayout₀, hlayout₁⟩

end Pat

end Tea
