import Tea.Lib.Draw
import Tea.Lib.Search
import Tea.Tables.Hpat
import Tea.Tables.Pat
/-!
# The samplers

A sampler draws one step of a walk at vertex `u`: an edge among the candidates, which are the first
`candidateSetLen u tPrev` edges of `u`. `choosePat` and `chooseHpat` are the samplers up to the position they choose,
`none` for a dead step; `samplePat` and `sampleHpat` map the position to a step.

The scratch buffers of a thread are resized but never cleared. What a sampler reads of them it has written before in
the same call, so the chosen position is that of a program without scratch (`patChoice`, `hpatChoice`).
-/

namespace Tea

open Layout Search Arith

variable {R P : Type} [Arith R]

/-- `SamplerScratch`. -/
structure SamplerScratch (R : Type) where
  partialWeights : List R := []
  partialCumsum : List R := []

/-! ### Parts of the samplers -/

/-- Recompute the weights of a slice of length `size` and their running sums; returns the total. -/
def recompute (bias : Bias R P) (tsSlice : List Int) (params : P) (sliceStartPos size : Nat)
    (scratch : SamplerScratch R) : SamplerScratch R × R :=
  let weights := bias.computeWeights tsSlice params sliceStartPos (resize size 0 scratch.partialWeights)
  let (cumsum, running) := (List.range size).foldl
    (fun s i => (s.1.set i (s.2 + weights.getD i 0), s.2 + weights.getD i 0))
    (resize size 0 scratch.partialCumsum, 0)
  ({ partialWeights := weights, partialCumsum := cumsum }, running)

/-- The first of the running sums `cs[0], .., cs[n-1]` that exceeds `r`, or the last one if none does. -/
def itsPick (cs : List R) (n : Nat) (r : R) : Int :=
  let it := upperBound lt (cs.take n) r
  if it = n then n - 1 else it

/-- Draw a slot of an alias table of `n` entries. -/
def aliasDraw (av : List (AliasEntry R)) (n : Nat) : Draw R Nat := do
  let bucket ← Draw.nextBelow n
  let pf ← Draw.nextF01
  return aliasSample av bucket pf

/-- The step along the edge of `u` at position `pos`. -/
def stepAt (graph : TemporalGraph) (u : Nat) (pos : Int) : SampledStep :=
  ⟨(graph.targetsOf u).getD pos.toNat 0, (graph.timestampsOf u).getD pos.toNat 0⟩

/-- The step at the chosen position, or the dead step. -/
def stepOf (graph : TemporalGraph) (u : Nat) : Option Int → SampledStep
  | some pos => stepAt graph u pos
  | none => .dead

/-! ### `sample_pat` -/

/-- The position chosen by `sample_pat`. -/
def choosePat (graph : TemporalGraph) (pat : Pat R P) (bias : Bias R P) (u : Nat) (tPrev : Int)
    (scratch : SamplerScratch R) : Draw R (Option Int × SamplerScratch R) :=
  let tsU := graph.timestampsOf u
  let G := graph.candidateSetLen u tPrev
  if G = 0 then return (none, scratch)
  else
    let T := pat.trunkSizeOf u
    let numFull := G / T
    let partialSize := G - numFull * T
    let trunkCs := pat.trunkCumsumsOf u
    let fullTotal := if 0 < numFull then trunkCs.getD (numFull - 1) 0 else 0
    let (scratch, partialTotal) :=
      if 0 < partialSize then
        let partialStart := numFull * T
        recompute bias (slice tsU partialStart partialSize) (pat.biasParamsOf bias u) partialStart partialSize scratch
      else (scratch, 0)
    let total := fullTotal + partialTotal
    if le total 0 then return (none, scratch)
    else do
      let u01 ← Draw.nextU01
      let r := u01 * total
      if lt r fullTotal then
        let trunkIdx := itsPick trunkCs numFull r
        let av := pat.aliasViewOfTrunk graph u trunkIdx.toNat
        let pos ← aliasDraw av av.length
        return (some (trunkIdx * T + pos), scratch)
      else
        let pos := itsPick scratch.partialCumsum partialSize (r - fullTotal)
        return (some (numFull * T + pos), scratch)

/-- `sample_pat`. -/
def samplePat (graph : TemporalGraph) (pat : Pat R P) (bias : Bias R P) (u : Int) (tPrev : Int)
    (scratch : SamplerScratch R) : Draw R (SampledStep × SamplerScratch R) := do
  let (choice, scratch) ← choosePat graph pat bias u.toNat tPrev scratch
  return (stepOf graph u.toNat choice, scratch)

/-! ### `sample_hpat` -/

/-- The position chosen by `sample_hpat`. -/
def chooseHpat (graph : TemporalGraph) (hpat : Hpat R P) (bias : Bias R P) (u : Nat) (tPrev : Int)
    (scratch : SamplerScratch R) : Draw R (Option Int × SamplerScratch R) :=
  let tsU := graph.timestampsOf u
  let G := graph.candidateSetLen u tPrev
  if G = 0 then return (none, scratch)
  else if hpat.isSoloAt u then
    let D := (graph.targetsOf u).length
    if G = D then do
      let pos ← aliasDraw (hpat.soloAliasView graph u) D
      return (some pos, scratch)
    else
      let (scratch, running) := recompute bias (slice tsU 0 G) (hpat.biasParamsOf bias u) 0 G scratch
      if le running 0 then return (none, scratch)
      else do
        let u01 ← Draw.nextU01
        return (some (itsPick scratch.partialCumsum G (u01 * running)), scratch)
  else
    let K := hpat.kMaxOf u
    let cover := if hpat.auxIndex.active then hpat.auxIndex.coverFor u G else decomposeToTrunks G K
    let totals := cover.map fun t => hpat.trunkTotalOf graph u t.level t.index
    let cumsum := Arith.cumsum 0 totals
    let total := Arith.sum totals
    if le total 0 then return (none, scratch)
    else do
      let u01 ← Draw.nextU01
      let r := u01 * total
      let jPick := (cumsum.findIdx? fun c => lt r c).getD (cover.length - 1)
      let tr := cover.getD jPick ⟨0, 0⟩
      let av := hpat.aliasViewOfTrunk graph u tr.level tr.index
      let pos ← aliasDraw av av.length
      return (some ((tr.index <<< tr.level : Nat) + pos : Int), scratch)

/-- `sample_hpat`. -/
def sampleHpat (graph : TemporalGraph) (hpat : Hpat R P) (bias : Bias R P) (u : Int) (tPrev : Int)
    (scratch : SamplerScratch R) : Draw R (SampledStep × SamplerScratch R) := do
  let (choice, scratch) ← chooseHpat graph hpat bias u.toNat tPrev scratch
  return (stepOf graph u.toNat choice, scratch)

/-! ### The programs without scratch -/

theorem foldl_cumsum (ws : List R) (out : List R) (h : out.length = ws.length) :
    (List.range ws.length).foldl (fun s i => (s.1.set i (s.2 + ws.getD i 0), s.2 + ws.getD i 0)) (out, (0 : R)) =
      (cumsum 0 ws, Arith.sum ws) := by
  suffices hsteps : ∀ k ≤ ws.length,
      (List.range k).foldl (fun s i => (s.1.set i (s.2 + ws.getD i 0), s.2 + ws.getD i 0)) (out, (0 : R)) =
        (splice out 0 (cumsum 0 (ws.take k)), Arith.sum (ws.take k)) by
    have hall := hsteps ws.length le_rfl
    rw [List.take_length] at hall
    rw [hall]
    have hfull : splice out 0 (cumsum 0 ws) = cumsum 0 ws := by
      rw [splice, List.take_zero, List.nil_append, List.drop_eq_nil_of_le (by simp [h]), List.append_nil]
    rw [hfull]
  intro k hk
  induction k with
  | zero => simp [splice_nil, cumsum, Arith.sum]
  | succ k ih =>
      have hk' : k < ws.length := hk
      have hget : ws.getD k 0 = ws[k] := List.getD_eq_getElem _ _ hk'
      have htake : ws.take (k + 1) = ws.take k ++ [ws[k]] := List.take_succ_eq_append_getElem hk'
      have hlen : (cumsum 0 (ws.take k)).length = k := by simp [hk'.le]
      rw [List.range_succ, List.foldl_append, ih hk'.le, List.foldl_cons, List.foldl_nil, hget, htake,
        cumsum_append_singleton]
      have hset : (splice out 0 (cumsum 0 (ws.take k))).set (0 + (cumsum 0 (ws.take k)).length)
          (Arith.sum (ws.take k) + ws[k]) = splice out 0 (cumsum 0 (ws.take k) ++ [Arith.sum (ws.take k) + ws[k]]) :=
        set_splice_end (by omega) _
      rw [hlen, Nat.zero_add] at hset
      refine Prod.ext hset ?_
      show Arith.sum (ws.take k) + ws[k] = Arith.sum (ws.take k ++ [ws[k]])
      rw [Arith.sum, Arith.sum, List.foldl_append, List.foldl_cons, List.foldl_nil]

theorem recompute_eq (bias : Bias R P) {tsSlice : List Int} (params : P) (pos : Nat) {size : Nat}
    (h : tsSlice.length = size) (scratch : SamplerScratch R) :
    recompute bias tsSlice params pos size scratch =
      (⟨bias.weights tsSlice params pos, cumsum 0 (bias.weights tsSlice params pos)⟩,
        Arith.sum (bias.weights tsSlice params pos)) := by
  subst h
  have hlen : (bias.weights tsSlice params pos).length = tsSlice.length := bias.length_weights _ _ _
  have hloop := foldl_cumsum (bias.weights tsSlice params pos) (resize tsSlice.length 0 scratch.partialCumsum)
    (by rw [length_resize, hlen])
  rw [hlen] at hloop
  unfold recompute
  rw [bias.computeWeights_eq params pos (length_resize _ _ _)]
  dsimp only
  rw [hloop]

/-- `choosePat` without its scratch. -/
def patChoice (graph : TemporalGraph) (pat : Pat R P) (bias : Bias R P) (u : Nat) (tPrev : Int) :
    Draw R (Option Int) :=
  let G := graph.candidateSetLen u tPrev
  if G = 0 then return none
  else
    let T := pat.trunkSizeOf u
    let numFull := G / T
    let ws := bias.weights (slice (graph.timestampsOf u) (numFull * T) (G - numFull * T)) (pat.biasParamsOf bias u)
      (numFull * T)
    let fullTotal := if 0 < numFull then (pat.trunkCumsumsOf u).getD (numFull - 1) 0 else 0
    let total := fullTotal + Arith.sum ws
    if le total 0 then return none
    else do
      let u01 ← Draw.nextU01
      if lt (u01 * total) fullTotal then
        let trunkIdx := itsPick (pat.trunkCumsumsOf u) numFull (u01 * total)
        let av := pat.aliasViewOfTrunk graph u trunkIdx.toNat
        let pos ← aliasDraw av av.length
        return some (trunkIdx * T + pos)
      else return some (numFull * T + itsPick (cumsum 0 ws) (G - numFull * T) (u01 * total - fullTotal))

theorem candidateSetLen_le_length (graph : TemporalGraph) (u : Nat) (tPrev : Int) :
    graph.candidateSetLen u tPrev ≤ (graph.timestampsOf u).length :=
  lowerBound_le_length _ _ _

theorem itsPick_congr {cs cs' : List R} {n : Nat} (h : cs.take n = cs'.take n) (r : R) :
    itsPick cs n r = itsPick cs' n r := by
  unfold itsPick
  rw [h]

/-- What the partial-trunk branch leaves in the scratch, up to the cells that are read afterwards. -/
theorem recompute_partial (bias : Bias R P) {tsSlice : List Int} (params : P) (pos : Nat) {size : Nat}
    (h : tsSlice.length = size) (scratch : SamplerScratch R) :
    ∃ scratch', (if 0 < size then recompute bias tsSlice params pos size scratch else (scratch, 0)) =
        (scratch', Arith.sum (bias.weights tsSlice params pos)) ∧
      scratch'.partialCumsum.take size = (cumsum 0 (bias.weights tsSlice params pos)).take size := by
  split_ifs with hsize
  · exact ⟨_, recompute_eq bias params pos h scratch, rfl⟩
  · obtain rfl : size = 0 := by omega
    have hnil : bias.weights tsSlice params pos = [] := by
      rw [← List.length_eq_zero_iff, bias.length_weights, h]
    exact ⟨scratch, by rw [hnil]; rfl, by simp⟩

theorem fst_choosePat (graph : TemporalGraph) (pat : Pat R P) (bias : Bias R P) (u : Nat) (tPrev : Int)
    (scratch : SamplerScratch R) :
    Prod.fst <$> choosePat graph pat bias u tPrev scratch = patChoice graph pat bias u tPrev := by
  have hG := candidateSetLen_le_length graph u tPrev
  unfold choosePat patChoice
  dsimp only
  generalize graph.candidateSetLen u tPrev = G at hG ⊢
  by_cases hzero : G = 0
  · rw [if_pos hzero, if_pos hzero]
    rfl
  rw [if_neg hzero, if_neg hzero]
  have hfit := Nat.div_mul_le_self G (pat.trunkSizeOf u)
  have hslice : (slice (graph.timestampsOf u) (G / pat.trunkSizeOf u * pat.trunkSizeOf u)
      (G - G / pat.trunkSizeOf u * pat.trunkSizeOf u)).length = G - G / pat.trunkSizeOf u * pat.trunkSizeOf u :=
    length_slice (by omega)
  obtain ⟨scratch', hscratch, hcumsum⟩ := recompute_partial bias (pat.biasParamsOf bias u)
    (G / pat.trunkSizeOf u * pat.trunkSizeOf u) hslice scratch
  rw [hscratch]
  dsimp only
  generalize bias.weights (slice (graph.timestampsOf u) (G / pat.trunkSizeOf u * pat.trunkSizeOf u)
    (G - G / pat.trunkSizeOf u * pat.trunkSizeOf u)) (pat.biasParamsOf bias u)
    (G / pat.trunkSizeOf u * pat.trunkSizeOf u) = ws at hcumsum ⊢
  generalize (if 0 < G / pat.trunkSizeOf u then (pat.trunkCumsumsOf u).getD (G / pat.trunkSizeOf u - 1) 0
    else 0) = fullTotal
  split_ifs with hdead
  · rfl
  rw [map_bind]
  refine bind_congr fun u01 => ?_
  split_ifs with hfull
  · simp
  · simp [itsPick_congr hcumsum]

/-- `chooseHpat` without its scratch. -/
def hpatChoice (graph : TemporalGraph) (hpat : Hpat R P) (bias : Bias R P) (u : Nat) (tPrev : Int) :
    Draw R (Option Int) :=
  let G := graph.candidateSetLen u tPrev
  if G = 0 then return none
  else if hpat.isSoloAt u then
    let D := (graph.targetsOf u).length
    if G = D then (fun pos : Nat => some (pos : Int)) <$> aliasDraw (hpat.soloAliasView graph u) D
    else
      let ws := bias.weights (slice (graph.timestampsOf u) 0 G) (hpat.biasParamsOf bias u) 0
      if le (Arith.sum ws) 0 then return none
      else do
        let u01 ← Draw.nextU01
        return some (itsPick (cumsum 0 ws) G (u01 * Arith.sum ws))
  else
    let cover := if hpat.auxIndex.active then hpat.auxIndex.coverFor u G else decomposeToTrunks G (hpat.kMaxOf u)
    let totals := cover.map fun t => hpat.trunkTotalOf graph u t.level t.index
    if le (Arith.sum totals) 0 then return none
    else do
      let u01 ← Draw.nextU01
      let jPick := ((cumsum 0 totals).findIdx? fun c => lt (u01 * Arith.sum totals) c).getD (cover.length - 1)
      let tr := cover.getD jPick ⟨0, 0⟩
      let av := hpat.aliasViewOfTrunk graph u tr.level tr.index
      let pos ← aliasDraw av av.length
      return some ((tr.index <<< tr.level : Nat) + pos : Int)

theorem fst_chooseHpat (graph : TemporalGraph) (hpat : Hpat R P) (bias : Bias R P) (u : Nat) (tPrev : Int)
    (scratch : SamplerScratch R) :
    Prod.fst <$> chooseHpat graph hpat bias u tPrev scratch = hpatChoice graph hpat bias u tPrev := by
  have hG := candidateSetLen_le_length graph u tPrev
  unfold chooseHpat hpatChoice
  dsimp only
  generalize graph.candidateSetLen u tPrev = G at hG ⊢
  by_cases hzero : G = 0
  · rw [if_pos hzero, if_pos hzero]
    rfl
  rw [if_neg hzero, if_neg hzero]
  by_cases hsolo : hpat.isSoloAt u = true
  · rw [if_pos hsolo, if_pos hsolo]
    by_cases hfull : G = (graph.targetsOf u).length
    · rw [if_pos hfull, if_pos hfull]
      simp
    · have hslice : (slice (graph.timestampsOf u) 0 G).length = G := length_slice (by omega)
      rw [if_neg hfull, if_neg hfull, recompute_eq bias (hpat.biasParamsOf bias u) 0 hslice scratch]
      dsimp only
      split_ifs with hdead
      · rfl
      · simp
  · rw [if_neg hsolo, if_neg hsolo]
    generalize (if hpat.auxIndex.active = true then hpat.auxIndex.coverFor u G
      else decomposeToTrunks G (hpat.kMaxOf u)) = cover
    split_ifs with hdead
    · rfl
    · rw [map_bind]
      refine bind_congr fun u01 => ?_
      rw [map_bind]
      rfl

theorem fst_samplePat (graph : TemporalGraph) (pat : Pat R P) (bias : Bias R P) (u tPrev : Int)
    (scratch : SamplerScratch R) : Prod.fst <$> samplePat graph pat bias u tPrev scratch =
      stepOf graph u.toNat <$> patChoice graph pat bias u.toNat tPrev := by
  rw [← fst_choosePat graph pat bias u.toNat tPrev scratch, samplePat, map_bind, map_eq_pure_bind,
    bind_map_left]
  rfl

theorem fst_sampleHpat (graph : TemporalGraph) (hpat : Hpat R P) (bias : Bias R P) (u tPrev : Int)
    (scratch : SamplerScratch R) : Prod.fst <$> sampleHpat graph hpat bias u tPrev scratch =
      stepOf graph u.toNat <$> hpatChoice graph hpat bias u.toNat tPrev := by
  rw [← fst_chooseHpat graph hpat bias u.toNat tPrev scratch, sampleHpat, map_bind, map_eq_pure_bind,
    bind_map_left]
  rfl

end Tea
