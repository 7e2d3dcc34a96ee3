import Tea.Sampling.Sampler
/-!
# The samplers on built tables

On the tables of a graph a sampler reads the weights of the edges: `patChoice_tables` and `hpatChoice_hierarchical`
replace what it looks up by what the tables are known to hold. From these forms follow

* `patChoice_candidate`, `hpatChoice_candidate`: the chosen position is that of a candidate, however the arithmetic
  rounds, as long as a draw times a total is not negative;
* `patChoice_live`, `hpatChoice_live`: with positive weights, a candidate set that is not empty yields a position.
-/

namespace Tea

open Layout Search Arith

variable {R P : Type} [Arith R]

/-! ### Picking by running sums -/

theorem itsPick_lt (cs : List R) (n : Nat) (r : R) : itsPick cs n r < n := by
  have h := upperBound_le_length lt (cs.take n) r
  rw [List.length_take] at h
  unfold itsPick
  dsimp only
  split_ifs <;> omega

theorem itsPick_nonneg (cs : List R) {n : Nat} (hn : 0 < n) (r : R) : 0 ≤ itsPick cs n r := by
  unfold itsPick
  dsimp only
  split_ifs <;> omega

/-- Without running sums the pick falls one short of the first position. -/
theorem itsPick_zero (cs : List R) (r : R) : itsPick cs 0 r = -1 := by
  have h := upperBound_le_length lt (cs.take 0) r
  have hzero : upperBound lt (cs.take 0) r = 0 := by simpa using h
  rw [itsPick, hzero]
  rfl

theorem aliasDraw_lt (U : R → Prop) {ws : List R} (h : 0 < ws.length) :
    (aliasDraw (voseTable ws) ws.length).All U (· < ws.length) :=
  fun _ hb c => aliasSample_lt ws (hb h) c

/-- The generator's doubles times a total that is not at most zero are not negative. -/
def NonnegDraws (U : R → Prop) : Prop := ∀ u01, U u01 → ∀ total : R, le total 0 = false → lt (u01 * total) 0 = false

theorem nonnegDraws_unit (K : Type) [Field K] [LinearOrder K] [IsStrictOrderedRing K] :
    NonnegDraws fun x : K => 0 ≤ x ∧ x < 1 := by
  intro u01 hu01 total htotal
  simp only [le_exact, lt_exact, decide_eq_false_iff_not, not_le, not_lt] at htotal ⊢
  exact mul_nonneg hu01.1 htotal.le

/-- A choice is dead or the position of a candidate. -/
def IsCandidate (graph : TemporalGraph) (u : Nat) (tPrev : Int) (choice : Option Int) : Prop :=
  ∀ pos : Int, choice = some pos → 0 ≤ pos ∧ pos < graph.candidateSetLen u tPrev

theorem isCandidate_none (graph : TemporalGraph) (u : Nat) (tPrev : Int) : IsCandidate graph u tPrev none :=
  fun _ h => nomatch h

theorem isCandidate_some {graph : TemporalGraph} {u : Nat} {tPrev pos : Int} (h : 0 ≤ pos)
    (hlt : pos < graph.candidateSetLen u tPrev) : IsCandidate graph u tPrev (some pos) := by
  intro pos' hpos'
  obtain rfl : pos = pos' := Option.some.inj hpos'
  exact ⟨h, hlt⟩

/-! ### `sample_pat` -/

section pat

variable {graph : TemporalGraph} {bias : Bias R P} {minTrunkSize : Int} (hg : graph.WellFormed) {u : Nat}
  (hu : u < graph.numVertices) {tPrev : Int}

/-- The weights recomputed for `len` edges of `u` from position `pos` on. -/
def sliceWeights (graph : TemporalGraph) (bias : Bias R P) (u pos len : Nat) : List R :=
  bias.weights (slice (graph.timestampsOf u) pos len) (bias.computePerVertexParams (graph.timestampsOf u)) pos

/-- All weights computed for slices of the edges of `u` are positive. -/
def PositiveAt (graph : TemporalGraph) (bias : Bias R P) (u : Nat) : Prop :=
  ∀ pos len, pos + len ≤ graph.degree u → ∀ w ∈ sliceWeights graph bias u pos len, lt 0 w = true

theorem Bias.Positive.positiveAt (hpos : bias.Positive) (graph : TemporalGraph) (u : Nat) : PositiveAt graph bias u :=
  fun _ _ _ => hpos _ _ _

/-- How many full trunks lie among the candidates. -/
def fullTrunks (graph : TemporalGraph) (minTrunkSize : Int) (u : Nat) (tPrev : Int) : Nat :=
  graph.candidateSetLen u tPrev / Pat.vertexTrunkSize graph minTrunkSize u

/-- The positions of the candidates in full trunks. -/
def fullSize (graph : TemporalGraph) (minTrunkSize : Int) (u : Nat) (tPrev : Int) : Nat :=
  fullTrunks graph minTrunkSize u tPrev * Pat.vertexTrunkSize graph minTrunkSize u

/-- The totals of the full trunks among the candidates. -/
def fullTotals (graph : TemporalGraph) (bias : Bias R P) (minTrunkSize : Int) (u : Nat) (tPrev : Int) : List R :=
  (Pat.trunkTotals (vertexWeights graph bias u) (Pat.vertexTrunkSize graph minTrunkSize u)).take
    (fullTrunks graph minTrunkSize u tPrev)

/-- The weights of the candidates behind the full trunks. -/
def partialWeights (graph : TemporalGraph) (bias : Bias R P) (minTrunkSize : Int) (u : Nat) (tPrev : Int) : List R :=
  sliceWeights graph bias u (fullSize graph minTrunkSize u tPrev)
    (graph.candidateSetLen u tPrev - fullSize graph minTrunkSize u tPrev)

/-- The total weight of the candidates, as the sampler adds it up. -/
def patTotal (graph : TemporalGraph) (bias : Bias R P) (minTrunkSize : Int) (u : Nat) (tPrev : Int) : R :=
  Arith.sum (fullTotals graph bias minTrunkSize u tPrev) + Arith.sum (partialWeights graph bias minTrunkSize u tPrev)

theorem fullSize_le : fullSize graph minTrunkSize u tPrev ≤ graph.candidateSetLen u tPrev :=
  Nat.div_mul_le_self _ _

include hg hu

theorem sliceWeights_full : sliceWeights graph bias u 0 (graph.degree u) = vertexWeights graph bias u := by
  rw [sliceWeights, ← hg.length_timestamps u hu, slice_zero_length]
  rfl

theorem PositiveAt.vertexWeights (hpos : PositiveAt graph bias u) : ∀ w ∈ vertexWeights graph bias u, lt 0 w = true := by
  rw [← sliceWeights_full hg hu]
  exact hpos 0 (graph.degree u) (by omega)

theorem fullTrunks_le : fullTrunks graph minTrunkSize u tPrev ≤
    numTrunks (graph.degree u) (Pat.vertexTrunkSize graph minTrunkSize u) := by
  rcases Nat.eq_zero_or_pos (graph.candidateSetLen u tPrev) with hzero | hpos
  · rw [fullTrunks, hzero, Nat.zero_div]
    exact Nat.zero_le _
  · have hD := hg.degree_pos_of_candidate hu hpos
    have hT : 0 < Pat.vertexTrunkSize graph minTrunkSize u := Pat.vertexTrunkSize_pos hD
    have hfit : fullSize graph minTrunkSize u tPrev ≤ graph.candidateSetLen u tPrev := fullSize_le
    have hle := (hfit.trans (hg.candidateSetLen_le hu tPrev)).trans (numTrunks_spec hD hT).2.2
    exact Nat.le_of_mul_le_mul_right hle hT

theorem length_trunkTotals : (Pat.trunkTotals (vertexWeights graph bias u)
    (Pat.vertexTrunkSize graph minTrunkSize u)).length =
      numTrunks (graph.degree u) (Pat.vertexTrunkSize graph minTrunkSize u) := by
  rw [Pat.trunkTotals, List.length_map, List.length_range, length_vertexWeights hg hu]

theorem length_fullTotals : (fullTotals graph bias minTrunkSize u tPrev).length =
    fullTrunks graph minTrunkSize u tPrev := by
  rw [fullTotals, List.length_take, length_trunkTotals hg hu]
  exact Nat.min_eq_left (fullTrunks_le hg hu)

theorem length_partialWeights : (partialWeights graph bias minTrunkSize u tPrev).length =
    graph.candidateSetLen u tPrev - fullSize graph minTrunkSize u tPrev := by
  have hle := hg.candidateSetLen_le hu tPrev
  have hfit : fullSize graph minTrunkSize u tPrev ≤ graph.candidateSetLen u tPrev := fullSize_le
  rw [partialWeights, sliceWeights, Bias.length_weights]
  refine length_slice ?_
  rw [hg.length_timestamps u hu]
  omega

theorem patChoice_tables (hG : 0 < graph.candidateSetLen u tPrev) :
    patChoice graph (Pat.tables graph bias minTrunkSize) bias u tPrev =
      if le (patTotal graph bias minTrunkSize u tPrev) 0 then return none
      else do
        let u01 ← Draw.nextU01
        let r := u01 * patTotal graph bias minTrunkSize u tPrev
        if lt r (Arith.sum (fullTotals graph bias minTrunkSize u tPrev)) then
          let k := itsPick (cumsum 0 (fullTotals graph bias minTrunkSize u tPrev))
            (fullTrunks graph minTrunkSize u tPrev) r
          let av := (Pat.tables graph bias minTrunkSize).aliasViewOfTrunk graph u k.toNat
          let pos ← aliasDraw av av.length
          return some (k * (Pat.vertexTrunkSize graph minTrunkSize u : Nat) + pos)
        else
          return some (fullSize graph minTrunkSize u tPrev +
            itsPick (cumsum 0 (partialWeights graph bias minTrunkSize u tPrev))
              (graph.candidateSetLen u tPrev - fullSize graph minTrunkSize u tPrev)
              (r - Arith.sum (fullTotals graph bias minTrunkSize u tPrev))) := by
  have hD := hg.degree_pos_of_candidate hu hG
  have hn : fullTrunks graph minTrunkSize u tPrev ≤ (Pat.trunkTotals (vertexWeights graph bias u)
      (Pat.vertexTrunkSize graph minTrunkSize u)).length := by
    rw [length_trunkTotals hg hu]
    exact fullTrunks_le hg hu
  have hsum : (if 0 < fullTrunks graph minTrunkSize u tPrev then
      (Pat.cumsumBlock graph bias minTrunkSize u).getD (fullTrunks graph minTrunkSize u tPrev - 1) 0 else 0) =
      Arith.sum (fullTotals graph bias minTrunkSize u tPrev) := by
    split_ifs with hpos
    · exact getD_cumsum_last _ hpos hn
    · have hzero : fullTrunks graph minTrunkSize u tPrev = 0 := by omega
      rw [fullTotals, hzero]
      rfl
  have hpick : ∀ r, itsPick (Pat.cumsumBlock graph bias minTrunkSize u) (fullTrunks graph minTrunkSize u tPrev) r =
      itsPick (cumsum 0 (fullTotals graph bias minTrunkSize u tPrev)) (fullTrunks graph minTrunkSize u tPrev) r := by
    refine itsPick_congr ?_
    rw [fullTotals, ← take_cumsum, List.take_take, Nat.min_self]
    rfl
  unfold patChoice
  dsimp only
  rw [if_neg hG.ne', Pat.trunkSizeOf_tables hu, Pat.biasParamsOf_tables hu hD, Pat.trunkCumsumsOf_tables hg hu]
  have hfull : graph.candidateSetLen u tPrev / Pat.vertexTrunkSize graph minTrunkSize u =
      fullTrunks graph minTrunkSize u tPrev := rfl
  rw [hfull, hsum]
  simp only [hpick]
  rfl

variable (bias) in
theorem fullTrunk_view {k : Nat} (hk : k < fullTrunks graph minTrunkSize u tPrev) :
    (k + 1) * Pat.vertexTrunkSize graph minTrunkSize u ≤ fullSize graph minTrunkSize u tPrev ∧
    (Pat.trunkWeights (vertexWeights graph bias u) (Pat.vertexTrunkSize graph minTrunkSize u) k).length =
      Pat.vertexTrunkSize graph minTrunkSize u ∧
    (Pat.tables graph bias minTrunkSize).aliasViewOfTrunk graph u k =
      voseTable (Pat.trunkWeights (vertexWeights graph bias u) (Pat.vertexTrunkSize graph minTrunkSize u) k) := by
  have hend : (k + 1) * Pat.vertexTrunkSize graph minTrunkSize u ≤ fullSize graph minTrunkSize u tPrev :=
    Nat.mul_le_mul_right _ hk
  have hfit : fullSize graph minTrunkSize u tPrev ≤ graph.candidateSetLen u tPrev := fullSize_le
  have hle := hg.candidateSetLen_le hu tPrev
  have hws : (vertexWeights graph bias u).length = graph.degree u := length_vertexWeights hg hu
  have hlo : k * Pat.vertexTrunkSize graph minTrunkSize u ≤ (vertexWeights graph bias u).length := by
    rw [Nat.succ_mul] at hend
    omega
  refine ⟨hend, ?_, Pat.aliasViewOfTrunk_tables hg hu (hk.trans_le (fullTrunks_le hg hu))⟩
  rw [Pat.length_trunkWeights hlo, trunkLength_of_le (by omega)]

/-- **The position chosen by `sample_pat` is that of a candidate.** -/
theorem patChoice_candidate {U : R → Prop} (hU : NonnegDraws U) :
    (patChoice graph (Pat.tables graph bias minTrunkSize) bias u tPrev).All U (IsCandidate graph u tPrev) := by
  rcases Nat.eq_zero_or_pos (graph.candidateSetLen u tPrev) with hG | hG
  · unfold patChoice
    rw [if_pos hG]
    exact isCandidate_none graph u tPrev
  have hT : 0 < Pat.vertexTrunkSize graph minTrunkSize u :=
    Pat.vertexTrunkSize_pos (hg.degree_pos_of_candidate hu hG)
  have hfit : fullSize graph minTrunkSize u tPrev ≤ graph.candidateSetLen u tPrev := fullSize_le
  rw [patChoice_tables hg hu hG]
  split_ifs with hdead
  · exact isCandidate_none graph u tPrev
  rw [Draw.nextU01_bind, Draw.all_u01]
  intro u01 hu01
  have hr : lt (u01 * patTotal graph bias minTrunkSize u tPrev) 0 = false := hU u01 hu01 _ (by simpa using hdead)
  generalize u01 * patTotal graph bias minTrunkSize u tPrev = r at hr
  dsimp only
  split_ifs with hfull
  · -- a draw that is not negative is not below an empty sum, so there is a full trunk
    have hn : 0 < fullTrunks graph minTrunkSize u tPrev := by
      by_contra hzero
      have hnil : fullTotals graph bias minTrunkSize u tPrev = [] := by
        rw [← List.length_eq_zero_iff, length_fullTotals hg hu]
        omega
      rw [hnil] at hfull
      exact Bool.false_ne_true (hr.symm.trans hfull)
    have hlt := itsPick_lt (cumsum 0 (fullTotals graph bias minTrunkSize u tPrev))
      (fullTrunks graph minTrunkSize u tPrev) r
    obtain ⟨k, hk⟩ := Int.eq_ofNat_of_zero_le
      (itsPick_nonneg (cumsum 0 (fullTotals graph bias minTrunkSize u tPrev)) hn r)
    rw [hk] at hlt ⊢
    obtain ⟨hend, hlen, hview⟩ := fullTrunk_view bias hg hu (by exact_mod_cast hlt)
    rw [Int.toNat_natCast, hview, length_voseTable]
    refine (aliasDraw_lt U (by omega)).bind fun pos hpos => ?_
    rw [hlen] at hpos
    rw [Nat.succ_mul] at hend
    refine isCandidate_some (by positivity) ?_
    exact_mod_cast (by omega : k * Pat.vertexTrunkSize graph minTrunkSize u + pos < graph.candidateSetLen u tPrev)
  · have hlt := itsPick_lt (cumsum 0 (partialWeights graph bias minTrunkSize u tPrev))
      (graph.candidateSetLen u tPrev - fullSize graph minTrunkSize u tPrev)
      (r - Arith.sum (fullTotals graph bias minTrunkSize u tPrev))
    rcases Nat.eq_zero_or_pos (graph.candidateSetLen u tPrev - fullSize graph minTrunkSize u tPrev) with hzero | hpos
    · -- without a partial trunk the pick is the last position of the full trunks
      rw [hzero, itsPick_zero]
      exact isCandidate_some (by omega) (by omega)
    · have hnonneg := itsPick_nonneg (cumsum 0 (partialWeights graph bias minTrunkSize u tPrev)) hpos
        (r - Arith.sum (fullTotals graph bias minTrunkSize u tPrev))
      exact isCandidate_some (by omega) (by omega)

omit hg hu in
theorem patChoice_empty (pat : Pat R P) (hG : graph.candidateSetLen u tPrev = 0) :
    patChoice graph pat bias u tPrev = pure none :=
  if_pos hG

theorem patChoice_dead (hG : 0 < graph.candidateSetLen u tPrev)
    (hdead : le (patTotal graph bias minTrunkSize u tPrev) 0 = true) :
    patChoice graph (Pat.tables graph bias minTrunkSize) bias u tPrev = pure none := by
  rw [patChoice_tables hg hu hG, if_pos hdead]

theorem patChoice_live (U : R → Prop) (hG : 0 < graph.candidateSetLen u tPrev)
    (hlive : le (patTotal graph bias minTrunkSize u tPrev) 0 = false) :
    (patChoice graph (Pat.tables graph bias minTrunkSize) bias u tPrev).All U (· ≠ none) := by
  rw [patChoice_tables hg hu hG, if_neg (by simp [hlive]), Draw.nextU01_bind, Draw.all_u01]
  intro u01 _
  dsimp only
  split_ifs with hfull
  · exact fun _ _ _ => Option.some_ne_none _
  · exact Option.some_ne_none _

variable (minTrunkSize) in
theorem patTotal_pos [PosArith R] (hpos : PositiveAt graph bias u) (hG : 0 < graph.candidateSetLen u tPrev) :
    le (patTotal graph bias minTrunkSize u tPrev) 0 = false := by
  have hle := hg.candidateSetLen_le hu tPrev
  have hfit : fullSize graph minTrunkSize u tPrev ≤ graph.candidateSetLen u tPrev := fullSize_le
  refine PosArith.not_le_zero _ (PosArith.sum_add_sum_pos ?_ ?_ (hpos _ _ (by omega)))
  · by_contra hne
    obtain ⟨hfull, hpart⟩ := not_or.mp hne
    rw [ne_eq, not_not, ← List.length_eq_zero_iff] at hfull hpart
    rw [length_fullTotals hg hu] at hfull
    rw [length_partialWeights hg hu, fullSize, hfull] at hpart
    omega
  · intro total htotal
    obtain ⟨k, hk, rfl⟩ := List.getElem_of_mem htotal
    rw [length_fullTotals hg hu] at hk
    obtain ⟨-, hlen, -⟩ := fullTrunk_view bias hg hu hk
    have hT : 0 < Pat.vertexTrunkSize graph minTrunkSize u :=
      Pat.vertexTrunkSize_pos (hg.degree_pos_of_candidate hu hG)
    have hget : (fullTotals graph bias minTrunkSize u tPrev)[k] = Arith.sum
        (Pat.trunkWeights (vertexWeights graph bias u) (Pat.vertexTrunkSize graph minTrunkSize u) k) := by
      simp [fullTotals, Pat.trunkTotals]
    rw [hget]
    refine PosArith.sum_pos (List.length_pos_iff.mp (by omega)) fun w hw => ?_
    exact hpos.vertexWeights hg hu w (mem_of_mem_slice hw)

end pat

/-! ### `sample_hpat` -/

section hpat

variable {graph : TemporalGraph} {bias : Bias R P} {aux : AuxIndex} (hg : graph.WellFormed) {u : Nat}
  (hu : u < graph.numVertices) {tPrev : Int}

/-- An active index holds the covers of the graph. -/
def ServesCovers (graph : TemporalGraph) (aux : AuxIndex) : Prop :=
  aux.active = true → ∀ u < graph.numVertices, soloOfDegree (graph.degree u) = false → ∀ L ≤ graph.degree u,
    aux.coverFor u L = decomposeToTrunks L (kMaxOfDegree (graph.degree u))

theorem servesCovers_inactive (graph : TemporalGraph) (h : aux.active = false) : ServesCovers graph aux :=
  fun hactive => absurd (h.symm.trans hactive) Bool.false_ne_true

theorem servesCovers_auxOf (graph : TemporalGraph) (auxBudgetBytes : Nat) :
    ServesCovers graph (Hpat.auxOf graph auxBudgetBytes) := by
  unfold Hpat.auxOf
  dsimp only
  split_ifs with hbudget
  · exact servesCovers_inactive graph rfl
  · intro _ u hu hsolo L hL
    rw [AuxIndex.coverFor_index hu (by simp [AuxIndex.soloAt, List.getD_eq_getElem?_getD, hu, hsolo]) hL]
    simp [List.getD_eq_getElem?_getD, hu]

/-- A build with this budget leaves no older index of the object in use. -/
def Hpat.Renews (self : Hpat R P) (auxBudgetBytes : Nat) : Prop := 0 < auxBudgetBytes ∨ self.auxIndex.active = false

omit [Arith R] in
theorem Hpat.renews_fresh (auxBudgetBytes : Nat) : ({} : Hpat R P).Renews auxBudgetBytes := .inr rfl

/-- An `Hpat` built so consists of the tables of the graph and an index that serves its covers. -/
theorem Hpat.build_renewed (hg : graph.WellFormed) (bias : Bias R P) {self : Hpat R P} {auxBudgetBytes : Nat}
    (hrenews : self.Renews auxBudgetBytes) (σ σ' : ForSchedule graph.numVertices) :
    ∃ aux, ServesCovers graph aux ∧ self.build graph bias auxBudgetBytes σ σ' = Hpat.tables graph bias aux := by
  refine ⟨_, ?_, Hpat.build_eq hg self auxBudgetBytes σ σ'⟩
  split_ifs with hbudget
  · exact servesCovers_auxOf graph auxBudgetBytes
  · exact servesCovers_inactive graph (hrenews.resolve_left hbudget)

/-- The cover of the candidates. -/
def candidateCover (graph : TemporalGraph) (u : Nat) (tPrev : Int) : List TrunkRef :=
  decomposeToTrunks (graph.candidateSetLen u tPrev) (kMaxOfDegree (graph.degree u))

/-- The totals of the trunks of the cover. -/
def coverTotals (graph : TemporalGraph) (bias : Bias R P) (u : Nat) (tPrev : Int) : List R :=
  (candidateCover graph u tPrev).map fun t => Arith.sum (Hpat.trunkWeights (vertexWeights graph bias u) t)

/-- The trunk of the cover that a draw picks. -/
def coverPick (graph : TemporalGraph) (bias : Bias R P) (u : Nat) (tPrev : Int) (r : R) : TrunkRef :=
  (candidateCover graph u tPrev).getD (((cumsum 0 (coverTotals graph bias u tPrev)).findIdx? fun c => lt r c).getD
    ((candidateCover graph u tPrev).length - 1)) ⟨0, 0⟩

include hg hu

theorem candidateSetLen_lt_levels (hsolo : soloOfDegree (graph.degree u) = false) :
    graph.candidateSetLen u tPrev < 2 ^ (kMaxOfDegree (graph.degree u) + 1).toNat :=
  (hg.candidateSetLen_le hu tPrev).trans_lt (Hpat.lt_two_pow_levels hsolo)

theorem candidateCover_ne_nil (hsolo : soloOfDegree (graph.degree u) = false)
    (hG : 0 < graph.candidateSetLen u tPrev) : candidateCover graph u tPrev ≠ [] :=
  cover_ne_nil (candidateSetLen_lt_levels hg hu hsolo) hG

variable (bias) in
theorem coverPick_mem (hsolo : soloOfDegree (graph.degree u) = false) (hG : 0 < graph.candidateSetLen u tPrev)
    (r : R) : coverPick graph bias u tPrev r ∈ candidateCover graph u tPrev := by
  have hpos : 0 < (candidateCover graph u tPrev).length :=
    List.length_pos_iff.mpr (candidateCover_ne_nil hg hu hsolo hG)
  have hlt : ((cumsum 0 (coverTotals graph bias u tPrev)).findIdx? fun c => lt r c).getD
      ((candidateCover graph u tPrev).length - 1) < (candidateCover graph u tPrev).length := by
    cases hfind : (cumsum 0 (coverTotals graph bias u tPrev)).findIdx? fun c => lt r c with
    | none =>
        rw [Option.getD_none]
        omega
    | some j =>
        have hj := (List.findIdx?_eq_some_iff_getElem.mp hfind).1
        rw [length_cumsum, coverTotals, List.length_map] at hj
        rwa [Option.getD_some]
  rw [coverPick, List.getD_eq_getElem _ _ hlt]
  exact List.getElem_mem hlt

variable (bias aux) in
theorem cover_trunk (hsolo : soloOfDegree (graph.degree u) = false) (hG : 0 < graph.candidateSetLen u tPrev)
    {t : TrunkRef} (ht : t ∈ candidateCover graph u tPrev) :
    t.hi ≤ graph.candidateSetLen u tPrev ∧
    (Hpat.trunkWeights (vertexWeights graph bias u) t).length = 2 ^ t.level ∧
    (Hpat.tables graph bias aux).aliasViewOfTrunk graph u t.level t.index =
      voseTable (Hpat.trunkWeights (vertexWeights graph bias u) t) ∧
    (Hpat.tables graph bias aux).trunkTotalOf graph u t.level t.index =
      Arith.sum (Hpat.trunkWeights (vertexWeights graph bias u) t) := by
  have hle := hg.candidateSetLen_le hu tPrev
  have hD : kHpatDegreeThreshold < graph.degree u := by
    by_contra hge
    have hpos := hg.degree_pos_of_candidate hu hG
    simp [soloOfDegree, hpos, Nat.le_of_not_lt hge] at hsolo
  have hhi : t.hi ≤ graph.candidateSetLen u tPrev := hi_le_of_mem_cover ht
  have hlevel : t.level ≤ (graph.degree u).log2 := by
    have h := level_lt_of_mem_cover ht
    rw [Hpat.levels_of_lt hD] at h
    omega
  have hindex : t.index < graph.degree u >>> t.level := index_lt_of_mem_cover hle ht
  exact ⟨hhi, Hpat.length_trunkWeights (by rw [length_vertexWeights hg hu]; omega),
    Hpat.aliasViewOfTrunk_tables hg hu hD hlevel hindex, Hpat.trunkTotalOf_tables hg hu hD hlevel hindex⟩

theorem hpatChoice_hierarchical (haux : ServesCovers graph aux) (hsolo : soloOfDegree (graph.degree u) = false)
    (hG : 0 < graph.candidateSetLen u tPrev) :
    hpatChoice graph (Hpat.tables graph bias aux) bias u tPrev =
      if le (Arith.sum (coverTotals graph bias u tPrev)) 0 then return none
      else do
        let u01 ← Draw.nextU01
        let t := coverPick graph bias u tPrev (u01 * Arith.sum (coverTotals graph bias u tPrev))
        let ws := Hpat.trunkWeights (vertexWeights graph bias u) t
        let pos ← aliasDraw (voseTable ws) ws.length
        return some ((t.lo + pos : Nat) : Int) := by
  have hcover : (if (Hpat.tables graph bias aux).auxIndex.active = true then
      (Hpat.tables graph bias aux).auxIndex.coverFor u (graph.candidateSetLen u tPrev)
      else decomposeToTrunks (graph.candidateSetLen u tPrev) ((Hpat.tables graph bias aux).kMaxOf u)) =
      candidateCover graph u tPrev := by
    rw [Hpat.kMaxOf_tables hu]
    split_ifs with hactive
    · exact haux hactive u hu hsolo _ (hg.candidateSetLen_le hu tPrev)
    · rfl
  have htotals : ((candidateCover graph u tPrev).map fun t =>
      (Hpat.tables graph bias aux).trunkTotalOf graph u t.level t.index) = coverTotals graph bias u tPrev :=
    List.map_congr_left fun t ht => (cover_trunk bias aux hg hu hsolo hG ht).2.2.2
  unfold hpatChoice
  dsimp only
  rw [if_neg hG.ne', Hpat.isSoloAt_tables hu, if_neg (by simp [hsolo]), hcover, htotals]
  split_ifs with hdead
  · rfl
  refine bind_congr fun u01 => ?_
  have hmem := coverPick_mem bias hg hu hsolo hG (u01 * Arith.sum (coverTotals graph bias u tPrev))
  obtain ⟨-, -, hview, -⟩ := cover_trunk bias aux hg hu hsolo hG hmem
  have hpick : (candidateCover graph u tPrev).getD (((cumsum 0 (coverTotals graph bias u tPrev)).findIdx? fun c =>
      lt (u01 * Arith.sum (coverTotals graph bias u tPrev)) c).getD ((candidateCover graph u tPrev).length - 1))
      ⟨0, 0⟩ = coverPick graph bias u tPrev (u01 * Arith.sum (coverTotals graph bias u tPrev)) := rfl
  rw [hpick, hview, length_voseTable, Nat.shiftLeft_eq]
  simp [TrunkRef.lo]

theorem hpatChoice_soloFull (hsolo : soloOfDegree (graph.degree u) = true) (hG : 0 < graph.candidateSetLen u tPrev)
    (hfull : graph.candidateSetLen u tPrev = graph.degree u) :
    hpatChoice graph (Hpat.tables graph bias aux) bias u tPrev = (fun pos : Nat => some (pos : Int)) <$>
      aliasDraw (voseTable (vertexWeights graph bias u)) (vertexWeights graph bias u).length := by
  unfold hpatChoice
  dsimp only
  rw [if_neg hG.ne', Hpat.isSoloAt_tables hu, if_pos hsolo, hg.length_targets u hu, if_pos hfull,
    Hpat.soloAliasView_tables hg hu hsolo, length_vertexWeights hg hu]

theorem hpatChoice_soloPartial (hsolo : soloOfDegree (graph.degree u) = true)
    (hG : 0 < graph.candidateSetLen u tPrev) (hpart : graph.candidateSetLen u tPrev ≠ graph.degree u) :
    hpatChoice graph (Hpat.tables graph bias aux) bias u tPrev =
      if le (Arith.sum (sliceWeights graph bias u 0 (graph.candidateSetLen u tPrev))) 0 then return none
      else do
        let u01 ← Draw.nextU01
        return some (itsPick (cumsum 0 (sliceWeights graph bias u 0 (graph.candidateSetLen u tPrev)))
          (graph.candidateSetLen u tPrev)
          (u01 * Arith.sum (sliceWeights graph bias u 0 (graph.candidateSetLen u tPrev)))) := by
  unfold hpatChoice
  dsimp only
  rw [if_neg hG.ne', Hpat.isSoloAt_tables hu, if_pos hsolo, hg.length_targets u hu, if_neg hpart,
    Hpat.biasParamsOf_tables hu (hg.degree_pos_of_candidate hu hG)]
  rfl

/-- **The position chosen by `sample_hpat` is that of a candidate**, in each of its layouts. -/
theorem hpatChoice_candidate (haux : ServesCovers graph aux) (U : R → Prop) :
    (hpatChoice graph (Hpat.tables graph bias aux) bias u tPrev).All U (IsCandidate graph u tPrev) := by
  rcases Nat.eq_zero_or_pos (graph.candidateSetLen u tPrev) with hG | hG
  · unfold hpatChoice
    rw [if_pos hG]
    exact isCandidate_none graph u tPrev
  by_cases hsolo : soloOfDegree (graph.degree u) = true
  · by_cases hfull : graph.candidateSetLen u tPrev = graph.degree u
    · have hws : (vertexWeights graph bias u).length = graph.degree u := length_vertexWeights hg hu
      rw [hpatChoice_soloFull hg hu hsolo hG hfull, Draw.all_map]
      refine (aliasDraw_lt U (by omega)).mono fun pos hpos => isCandidate_some (by positivity) ?_
      exact_mod_cast (by omega : pos < graph.candidateSetLen u tPrev)
    · rw [hpatChoice_soloPartial hg hu hsolo hG hfull]
      split_ifs with hdead
      · exact isCandidate_none graph u tPrev
      · exact fun u01 _ => isCandidate_some (itsPick_nonneg _ hG _) (itsPick_lt _ _ _)
  · have hsolo : soloOfDegree (graph.degree u) = false := by simpa using hsolo
    rw [hpatChoice_hierarchical hg hu haux hsolo hG]
    split_ifs with hdead
    · exact isCandidate_none graph u tPrev
    rw [Draw.nextU01_bind, Draw.all_u01]
    intro u01 _
    dsimp only
    obtain ⟨hhi, hlen, -⟩ := cover_trunk bias aux hg hu hsolo hG
      (coverPick_mem bias hg hu hsolo hG (u01 * Arith.sum (coverTotals graph bias u tPrev)))
    generalize coverPick graph bias u tPrev (u01 * Arith.sum (coverTotals graph bias u tPrev)) = t at hhi hlen ⊢
    have hpos := Nat.two_pow_pos t.level
    refine (aliasDraw_lt U (by omega)).bind fun pos hlt => isCandidate_some (by positivity) ?_
    rw [TrunkRef.hi_eq] at hhi
    exact_mod_cast (by omega : t.lo + pos < graph.candidateSetLen u tPrev)

omit hg hu in
theorem hpatChoice_empty (hpat : Hpat R P) (hG : graph.candidateSetLen u tPrev = 0) :
    hpatChoice graph hpat bias u tPrev = pure none :=
  if_pos hG

/-- The weight of the candidates of `u`, as the sampler adds it up: at a solo vertex edge by edge, at a
hierarchical one trunk by trunk. -/
def hpatTotal (graph : TemporalGraph) (bias : Bias R P) (u : Nat) (tPrev : Int) : R :=
  if soloOfDegree (graph.degree u) then Arith.sum (sliceWeights graph bias u 0 (graph.candidateSetLen u tPrev))
  else Arith.sum (coverTotals graph bias u tPrev)

/-- Unless all edges of a solo vertex are candidates, the sampler dies if the total weight is at most zero. -/
theorem hpatChoice_dead (haux : ServesCovers graph aux) (hG : 0 < graph.candidateSetLen u tPrev)
    (hlayout : soloOfDegree (graph.degree u) = true → graph.candidateSetLen u tPrev ≠ graph.degree u)
    (hdead : le (hpatTotal graph bias u tPrev) 0 = true) :
    hpatChoice graph (Hpat.tables graph bias aux) bias u tPrev = pure none := by
  unfold hpatTotal at hdead
  split_ifs at hdead with hsolo
  · rw [hpatChoice_soloPartial hg hu hsolo hG (hlayout hsolo), if_pos hdead]
  · rw [hpatChoice_hierarchical hg hu haux (by simpa using hsolo) hG, if_pos hdead]

theorem hpatChoice_live (haux : ServesCovers graph aux) (U : R → Prop) (hG : 0 < graph.candidateSetLen u tPrev)
    (hlive : le (hpatTotal graph bias u tPrev) 0 = false) :
    (hpatChoice graph (Hpat.tables graph bias aux) bias u tPrev).All U (· ≠ none) := by
  unfold hpatTotal at hlive
  split_ifs at hlive with hsolo
  · by_cases hfull : graph.candidateSetLen u tPrev = graph.degree u
    · rw [hpatChoice_soloFull hg hu hsolo hG hfull, Draw.all_map]
      exact fun _ _ _ => Option.some_ne_none _
    · rw [hpatChoice_soloPartial hg hu hsolo hG hfull, if_neg (by simp [hlive])]
      exact fun _ _ => Option.some_ne_none _
  · rw [hpatChoice_hierarchical hg hu haux (by simpa using hsolo) hG, if_neg (by simp [hlive])]
    exact fun _ _ _ _ _ => Option.some_ne_none _

theorem hpatTotal_pos [PosArith R] (hpos : PositiveAt graph bias u) (hG : 0 < graph.candidateSetLen u tPrev) :
    le (hpatTotal graph bias u tPrev) 0 = false := by
  have hle := hg.candidateSetLen_le hu tPrev
  unfold hpatTotal
  split_ifs with hsolo
  · refine PosArith.not_le_zero _ (PosArith.sum_pos (List.length_pos_iff.mp ?_) (hpos _ _ (by omega)))
    rw [sliceWeights, Bias.length_weights, length_slice (by rw [hg.length_timestamps u hu]; omega)]
    exact hG
  · have hsolo : soloOfDegree (graph.degree u) = false := by simpa using hsolo
    refine PosArith.not_le_zero _ (PosArith.sum_pos ?_ fun total htotal => ?_)
    · rw [coverTotals, ne_eq, List.map_eq_nil_iff]
      exact candidateCover_ne_nil hg hu hsolo hG
    · obtain ⟨t, ht, rfl⟩ := List.mem_map.mp htotal
      obtain ⟨-, hlen, -⟩ := cover_trunk bias {} hg hu hsolo hG ht
      have hpow := Nat.two_pow_pos t.level
      refine PosArith.sum_pos (List.length_pos_iff.mp (by omega)) fun w hw => ?_
      exact hpos.vertexWeights hg hu w (mem_of_mem_slice hw)

end hpat

end Tea
