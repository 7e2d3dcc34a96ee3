import Tea.Graph.Ties
import Tea.Lib.Ranks
import Tea.Sampling.StepLaw
/-!
# The order of the input

An edge list and a permutation of it are the same temporal graph, but the sort of a vertex leaves entries with equal times
in an order that comes from the input. Weights that depend on the times give the same step law on both
(`byTime_invariant`). `LinearBias` weights an entry by its rank in the sorted list: the law is the same for all
permutations exactly if candidates with equal times have equal targets (`linear_invariant_iff`). Where they differ, two
permutations that exchange the two entries in the sorted list have different laws.
-/

namespace Tea

open Layout Arith
open scoped ENNReal

variable {P : Type}

/-- The graph of an edge list, built by one thread. -/
def serialGraph (S : StdSort) (edges : List Edge) (numVertices : Int) (isDirected : Bool) : TemporalGraph :=
  TemporalGraph.build S {} edges numVertices isDirected (Schedule.serial edges isDirected)

/-- On both graphs the samplers take a step with the same probability, whatever the layout of their tables. -/
structure SameStepLaw (g g' : TemporalGraph) (bias : Bias ℝ P) (u : Nat) (tPrev : Int) : Prop where
  pat : ∀ (minTrunkSize minTrunkSize' : Int) (τ : ForSchedule g.numVertices) (τ' : ForSchedule g'.numVertices)
    (scratch scratch' : SamplerScratch ℝ) (s : SampledStep),
    (Prod.fst <$> samplePat g (Pat.build {} g bias minTrunkSize τ) bias u tPrev scratch).prob (· = s) =
      (Prod.fst <$> samplePat g' (Pat.build {} g' bias minTrunkSize' τ') bias u tPrev scratch').prob (· = s)
  hpat : ∀ (auxBudgetBytes auxBudgetBytes' : Nat) (τ τ₁ : ForSchedule g.numVertices) (τ' τ₁' : ForSchedule g'.numVertices)
    (scratch scratch' : SamplerScratch ℝ) (s : SampledStep),
    (Prod.fst <$> sampleHpat g (Hpat.build {} g bias auxBudgetBytes τ τ₁) bias u tPrev scratch).prob (· = s) =
      (Prod.fst <$> sampleHpat g' (Hpat.build {} g' bias auxBudgetBytes' τ' τ₁') bias u tPrev scratch').prob (· = s)

/-- The step law at `u` after `tPrev` is that of every permutation of the edges. -/
def PermutationInvariant (S : StdSort) (edges : List Edge) (numVertices : Int) (isDirected : Bool) (bias : Bias ℝ P)
    (u : Nat) (tPrev : Int) : Prop :=
  ∀ edges' : List Edge, edges'.Perm edges →
    SameStepLaw (serialGraph S edges numVertices isDirected) (serialGraph S edges' numVertices isDirected) bias u tPrev

/-! ### Permutations of the input -/

section input

variable {edges edges' : List Edge}

theorem maxId_perm (h : edges'.Perm edges) : maxId edges' = maxId edges := by
  unfold maxId
  apply List.Perm.foldl_eq' h
  intro e _ e' _ m
  simp only [max_comm, max_left_comm]

theorem vertexCount_perm (h : edges'.Perm edges) (numVertices : Int) :
    vertexCount edges' numVertices = vertexCount edges numVertices := by
  rw [vertexCount, vertexCount, maxId_perm h]

theorem EndpointsIn.perm {numVertices : Int} (hin : EndpointsIn edges (vertexCount edges numVertices))
    (h : edges'.Perm edges) : EndpointsIn edges' (vertexCount edges' numVertices) := by
  rw [vertexCount_perm h]
  exact fun e he => hin e (h.mem_iff.mp he)

theorem inbound_perm (h : edges'.Perm edges) (isDirected : Bool) (v : Nat) :
    (inbound edges' isDirected v).Perm (inbound edges isDirected v) := by
  unfold inbound
  apply List.Perm.append
  · exact (h.filter _).map _
  · split_ifs
    · exact List.Perm.refl _
    · exact (h.filter _).map _

theorem captured_serial (edges : List Edge) (isDirected : Bool) :
    (Schedule.serial edges isDirected).captured = edges.flatMap (captures isDirected) := by
  show (staticPrograms 1 kScatterChunk (captures isDirected) edges).flatten = _
  have hall : edges.zipIdx.filter (fun x => x.2 / kScatterChunk % 1 = 0) = edges.zipIdx := by
    apply List.filter_eq_self.mpr
    intro x _
    simp [Nat.mod_one]
  rw [staticPrograms, List.range_one, List.map_singleton, List.flatten_singleton, hall, flatMap_zipIdx]

end input

/-! ### The candidates of a serial build -/

section serial

variable (S : StdSort) {edges edges' : List Edge} {numVertices : Int} (isDirected : Bool)
  (hin : EndpointsIn edges (vertexCount edges numVertices)) {u : Nat} (hu : u < vertexCount edges numVertices)
  (tPrev : Int)

include hin

theorem serialGraph_wellFormed : (serialGraph S edges numVertices isDirected).WellFormed :=
  TemporalGraph.build_wellFormed S {} _ hin

theorem numVertices_serialGraph :
    (serialGraph S edges numVertices isDirected).numVertices = vertexCount edges numVertices :=
  TemporalGraph.numVertices_build S {} _ hin

include hu

theorem lt_numVertices : u < (serialGraph S edges numVertices isDirected).numVertices := by
  rwa [numVertices_serialGraph S isDirected hin]

theorem entriesOf_serialGraph : (serialGraph S edges numVertices isDirected).entriesOf u =
    S.sort Prod.fst (arrivals (edges.flatMap (captures isDirected)) u) := by
  have hlen : u < (adjacency S (vertexCount edges numVertices) (edges.flatMap (captures isDirected))).length := by
    rwa [length_adjacency]
  rw [serialGraph, TemporalGraph.build_eq_ofAdj S {} numVertices _ hin, captured_serial, entriesOf_ofAdj _ hlen,
    getElem_adjacency]

theorem entriesOf_perm_inbound :
    ((serialGraph S edges numVertices isDirected).entriesOf u).Perm (inbound edges isDirected u) := by
  rw [entriesOf_serialGraph S isDirected hin hu]
  exact (S.sort_perm _ _).trans (arrivals_perm_inbound edges isDirected u)

theorem timestampsOf_serialGraph : (serialGraph S edges numVertices isDirected).timestampsOf u =
    ((serialGraph S edges numVertices isDirected).entriesOf u).map Prod.fst := by
  have hg : (serialGraph S edges numVertices isDirected).WellFormed := serialGraph_wellFormed S isDirected hin
  have hu' : u < (serialGraph S edges numVertices isDirected).numVertices :=
    lt_numVertices S isDirected hin hu
  rw [TemporalGraph.entriesOf, List.map_fst_zip]
  rw [hg.length_timestamps u hu', hg.length_targets u hu']

variable (hperm : edges'.Perm edges)

include hperm

theorem timestampsOf_perm : (serialGraph S edges' numVertices isDirected).timestampsOf u =
    (serialGraph S edges numVertices isDirected).timestampsOf u := by
  have hin' : EndpointsIn edges' (vertexCount edges' numVertices) := hin.perm hperm
  have hu' : u < vertexCount edges' numVertices := by rwa [vertexCount_perm hperm]
  have hsorted := (serialGraph_wellFormed S isDirected hin).sorted u (lt_numVertices S isDirected hin hu)
  have hsorted' := (serialGraph_wellFormed S isDirected hin').sorted u
    (lt_numVertices S isDirected hin' hu')
  refine List.Perm.eq_of_pairwise (fun a b _ _ => le_antisymm) hsorted' hsorted ?_
  rw [timestampsOf_serialGraph S isDirected hin' hu', timestampsOf_serialGraph S isDirected hin hu]
  apply List.Perm.map
  exact (entriesOf_perm_inbound S isDirected hin' hu').trans
    ((inbound_perm hperm isDirected u).trans (entriesOf_perm_inbound S isDirected hin hu).symm)

theorem candidates_perm : ((serialGraph S edges' numVertices isDirected).candidates u tPrev).Perm
    ((serialGraph S edges numVertices isDirected).candidates u tPrev) := by
  have hin' : EndpointsIn edges' (vertexCount edges' numVertices) := hin.perm hperm
  have hu' : u < vertexCount edges' numVertices := by rwa [vertexCount_perm hperm]
  rw [candidates_eq_filter (serialGraph_wellFormed S isDirected hin') (lt_numVertices S isDirected hin' hu'),
    candidates_eq_filter (serialGraph_wellFormed S isDirected hin) (lt_numVertices S isDirected hin hu)]
  exact ((entriesOf_perm_inbound S isDirected hin' hu').trans
    ((inbound_perm hperm isDirected u).trans (entriesOf_perm_inbound S isDirected hin hu).symm)).filter _

end serial

/-! ### The law as a function of the candidates -/

section law

variable {S : StdSort} {edges edges' : List Edge} {numVertices : Int} {isDirected : Bool} {bias : Bias ℝ P}
  (hin : EndpointsIn edges (vertexCount edges numVertices)) {u : Nat} (hu : u < vertexCount edges numVertices)
  {tPrev : Int} (hperm : edges'.Perm edges) (hexact : ∀ ts, bias.ExactOnSlices ts)

include hin hu hperm hexact

/-- Two orders of the input have the same law exactly if the candidates have the same shares. -/
theorem sameStepLaw_iff : SameStepLaw (serialGraph S edges numVertices isDirected)
      (serialGraph S edges' numVertices isDirected) bias u tPrev ↔
    ∀ s, shareOf ((serialGraph S edges numVertices isDirected).candidates u tPrev) (fun i =>
        (bias.fullWeights ((serialGraph S edges numVertices isDirected).timestampsOf u)).getD i 0) s =
      shareOf ((serialGraph S edges' numVertices isDirected).candidates u tPrev) (fun i =>
        (bias.fullWeights ((serialGraph S edges numVertices isDirected).timestampsOf u)).getD i 0) s := by
  have hin' : EndpointsIn edges' (vertexCount edges' numVertices) := hin.perm hperm
  have hg : (serialGraph S edges numVertices isDirected).WellFormed := serialGraph_wellFormed S isDirected hin
  have hg' : (serialGraph S edges' numVertices isDirected).WellFormed := serialGraph_wellFormed S isDirected hin'
  have hun : u < (serialGraph S edges numVertices isDirected).numVertices :=
    lt_numVertices S isDirected hin hu
  have hun' : u < (serialGraph S edges' numVertices isDirected).numVertices :=
    lt_numVertices S isDirected hin' (by rwa [vertexCount_perm hperm])
  have hts := timestampsOf_perm S isDirected hin hu hperm
  constructor
  · intro h s
    have hpat := h.pat 0 0 (ForSchedule.serial _) (ForSchedule.serial _) {} {} s
    rw [prob_samplePat hg hun tPrev (hexact _), prob_samplePat hg' hun' tPrev (hexact _), hts] at hpat
    exact hpat
  · intro h
    constructor
    · intro minTrunkSize minTrunkSize' τ τ' scratch scratch' s
      rw [prob_samplePat hg hun tPrev (hexact _), prob_samplePat hg' hun' tPrev (hexact _), hts]
      exact h s
    · intro auxBudgetBytes auxBudgetBytes' τ τ₁ τ' τ₁' scratch scratch' s
      rw [prob_sampleHpat hg hun tPrev (hexact _) (Hpat.renews_fresh _),
        prob_sampleHpat hg' hun' tPrev (hexact _) (Hpat.renews_fresh _), hts]
      exact h s

/-- **Weights by time do not see the order of the input.** -/
theorem sameStepLaw_of_byTime (htime : bias.ByTime) : SameStepLaw (serialGraph S edges numVertices isDirected)
    (serialGraph S edges' numVertices isDirected) bias u tPrev := by
  apply (sameStepLaw_iff hin hu hperm hexact).mpr
  intro s
  have hg : (serialGraph S edges numVertices isDirected).WellFormed := serialGraph_wellFormed S isDirected hin
  have hun : u < (serialGraph S edges numVertices isDirected).numVertices :=
    lt_numVertices S isDirected hin hu
  have hin' : EndpointsIn edges' (vertexCount edges' numVertices) := hin.perm hperm
  have hg' : (serialGraph S edges' numVertices isDirected).WellFormed := serialGraph_wellFormed S isDirected hin'
  have hun' : u < (serialGraph S edges' numVertices isDirected).numVertices :=
    lt_numVertices S isDirected hin' (by rwa [vertexCount_perm hperm])
  obtain ⟨g, hweights⟩ := htime ((serialGraph S edges numVertices isDirected).timestampsOf u)
  rw [hweights, shareOf_congr fun i hi => getD_map_timestamps hg hun tPrev g hi,
    shareOf_perm (candidates_perm S isDirected hin hu tPrev hperm).symm]
  rw [← timestampsOf_perm S isDirected hin hu hperm]
  exact (shareOf_congr (fun i hi => getD_map_timestamps hg' hun' tPrev g hi) s).symm

end law

/-! ### Ranks -/

section ranks

/-- The ranks of a list of candidates. -/
def rankWeight (i : Nat) : ℝ := i + 1

theorem sum_rankWeight_pos {es : List Entry} (hne : es ≠ []) : 0 < ∑ i ∈ Finset.range es.length, rankWeight i := by
  apply Finset.sum_pos
  · intro i _
    exact Nat.cast_add_one_pos i
  · exact Finset.nonempty_range_iff.mpr (List.length_pos_iff.mpr hne).ne'

theorem shareOf_rank {es : List Entry} (hne : es ≠ []) (a : Entry) : shareOf es rankWeight (stepTo a) =
    ENNReal.ofReal (rankMass es a / ∑ i ∈ Finset.range es.length, rankWeight i) := by
  have htotal : 0 < ∑ i ∈ Finset.range es.length, rankWeight i := sum_rankWeight_pos hne
  have hterm : ∀ i ∈ Finset.range es.length,
      ENNReal.ofReal (rankWeight i / ∑ i ∈ Finset.range es.length, rankWeight i) *
          (if stepTo (es.getD i (0, 0)) = stepTo a then 1 else 0) =
        ENNReal.ofReal (((if es[i]? = some a then i + 1 else 0 : Nat) : ℝ) /
          ∑ i ∈ Finset.range es.length, rankWeight i) := by
    intro i hi
    have hi := Finset.mem_range.mp hi
    have hiff : stepTo (es.getD i (0, 0)) = stepTo a ↔ es[i]? = some a := by
      rw [stepTo_injective.eq_iff, List.getD_eq_getElem _ _ hi, List.getElem?_eq_getElem hi, Option.some.injEq]
    by_cases h : es[i]? = some a
    · rw [if_pos (hiff.mpr h), if_pos h, mul_one, rankWeight, Nat.cast_succ]
    · rw [if_neg (hiff.not.mpr h), if_neg h, mul_zero, Nat.cast_zero, zero_div, ENNReal.ofReal_zero]
  unfold shareOf
  dsimp only
  rw [if_neg htotal.ne', Finset.sum_congr rfl hterm, ← ENNReal.ofReal_sum_of_nonneg, ← Finset.sum_div, rankMass,
    Nat.cast_sum]
  intro i _
  exact div_nonneg (Nat.cast_nonneg _) htotal.le

theorem rankMass_eq_of_shareOf {es es' : List Entry} (hne : es ≠ []) (hlen : es'.length = es.length) {a : Entry}
    (h : shareOf es rankWeight (stepTo a) = shareOf es' rankWeight (stepTo a)) : rankMass es a = rankMass es' a := by
  have htotal := sum_rankWeight_pos hne
  have hne' : es' ≠ [] := by
    rintro rfl
    exact hne (List.eq_nil_of_length_eq_zero hlen.symm)
  rw [shareOf_rank hne, shareOf_rank hne', hlen, ENNReal.ofReal_eq_ofReal_iff (div_nonneg (Nat.cast_nonneg _) htotal.le)
    (div_nonneg (Nat.cast_nonneg _) htotal.le), div_left_inj' htotal.ne'] at h
  exact_mod_cast h

theorem getD_linearBias {ts : List Int} {i : Nat} (hi : i < ts.length) :
    ((linearBias : Bias ℝ Unit).fullWeights ts).getD i 0 = rankWeight i := by
  rw [linearBias, Bias.getD_fullWeights_ofEdgeWeight hi, ofInt_exact, rankWeight]
  push_cast
  rfl

end ranks

/-! ### Two inputs that exchange a tie -/

section exchange

variable {edges : List Edge} {isDirected : Bool} {u : Nat}

theorem arrivals_captures {e : Edge} {a : Entry} (ha : a ∈ arrivals (captures isDirected e) u) :
    arrivals (captures isDirected e) u = [a] ∨ (arrivals (captures isDirected e) u = [a, a] ∧ a.2 = u) := by
  have hsides : arrivals (captures isDirected e) u = (if e.v = u then [(e.t, e.u)] else []) ++
      if isDirected = false ∧ e.u = u then [(e.t, e.v)] else [] := by
    cases isDirected <;> by_cases hv : e.v = u <;> by_cases hu : e.u = u <;> simp [arrivals, capturesAt, captures, hv, hu]
  rw [hsides] at ha ⊢
  split_ifs at ha ⊢ with hv hu hu
  · -- a loop
    obtain ⟨-, hu⟩ := hu
    rw [hu, hv] at ha ⊢
    obtain rfl : a = (e.t, (u : Int)) := by simpa using ha
    exact .inr ⟨rfl, rfl⟩
  · obtain rfl : a = (e.t, e.u) := by simpa using ha
    exact .inl rfl
  · obtain rfl : a = (e.t, e.v) := by simpa using ha
    exact .inl rfl
  · cases ha

theorem getD_exchange {a b d : Entry} (mid rest : List Entry) {k : Nat} (h0 : k ≠ 0) (hk : k ≠ mid.length + 1) :
    (a :: (mid ++ b :: rest)).getD k d = (b :: (mid ++ a :: rest)).getD k d := by
  obtain ⟨k, rfl⟩ := Nat.exists_eq_succ_of_ne_zero h0
  rw [List.getD_cons_succ, List.getD_cons_succ]
  rcases Nat.lt_or_ge k mid.length with hlt | hge
  · rw [List.getD_append _ _ _ _ hlt, List.getD_append _ _ _ _ hlt]
  · rw [List.getD_append_right _ _ _ _ hge, List.getD_append_right _ _ _ _ hge]
    obtain ⟨m, hm⟩ : ∃ m, k - mid.length = m + 1 := ⟨k - mid.length - 1, by omega⟩
    rw [hm, List.getD_cons_succ, List.getD_cons_succ]

theorem exists_middle {a b : Entry} {xs ys : List Entry} (hxs : xs = [a] ∨ (xs = [a, a] ∧ a.2 = u))
    (hys : ys = [b] ∨ (ys = [b, b] ∧ b.2 = u)) (hne : a.2 ≠ b.2) :
    ∃ mid, xs ++ ys = a :: (mid ++ [b]) ∧ ys ++ xs = b :: (mid ++ [a]) := by
  rcases hxs with rfl | ⟨rfl, hloop⟩
  · rcases hys with rfl | ⟨rfl, -⟩
    · exact ⟨[], rfl, rfl⟩
    · exact ⟨[b], rfl, rfl⟩
  · rcases hys with rfl | ⟨rfl, hloop'⟩
    · exact ⟨[a], rfl, rfl⟩
    · exact absurd (hloop.trans hloop'.symm) hne

/-- Two entries of different targets: in some order of the edges the one arrives first, and in another one the other in its
place. -/
theorem exists_exchange {a b : Entry} (ha : a ∈ inbound edges isDirected u) (hb : b ∈ inbound edges isDirected u)
    (hne : a.2 ≠ b.2) : ∃ (edges₁ edges₂ : List Edge) (mid rest : List Entry), edges₁.Perm edges ∧ edges₂.Perm edges ∧
      arrivals (edges₁.flatMap (captures isDirected)) u = a :: (mid ++ b :: rest) ∧
      arrivals (edges₂.flatMap (captures isDirected)) u = b :: (mid ++ a :: rest) := by
  have hedge : ∀ x ∈ inbound edges isDirected u, ∃ e ∈ edges, x ∈ arrivals (captures isDirected e) u := by
    intro x hx
    obtain ⟨c, hc, hcv, rfl⟩ := mem_arrivals.mp ((arrivals_perm_inbound edges isDirected u).mem_iff.mpr hx)
    obtain ⟨e, he, hce⟩ := List.mem_flatMap.mp hc
    exact ⟨e, he, mem_arrivals.mpr ⟨c, hce, hcv, rfl⟩⟩
  obtain ⟨e, he, hae⟩ := hedge a ha
  obtain ⟨e', he', hbe'⟩ := hedge b hb
  have hdiff : e' ≠ e := by
    rintro rfl
    rcases arrivals_captures hae with h | ⟨h, -⟩ <;> exact hne (by rw [h] at hbe'; simp_all)
  have hperm : (e :: e' :: (edges.erase e).erase e').Perm edges :=
    (((List.perm_cons_erase ((List.mem_erase_of_ne hdiff).mpr he')).symm).cons e).trans (List.perm_cons_erase he).symm
  have hperm' : (e' :: e :: (edges.erase e).erase e').Perm edges := (List.Perm.swap e e' _).trans hperm
  obtain ⟨mid, hmid, hmid'⟩ := exists_middle (arrivals_captures hae) (arrivals_captures hbe') hne
  refine ⟨_, _, mid, arrivals (((edges.erase e).erase e').flatMap (captures isDirected)) u, hperm, hperm', ?_, ?_⟩
  · rw [List.flatMap_cons, List.flatMap_cons, arrivals_append, arrivals_append, ← List.append_assoc, hmid]
    simp
  · rw [List.flatMap_cons, List.flatMap_cons, arrivals_append, arrivals_append, ← List.append_assoc, hmid']
    simp

end exchange

/-! ### The law of `LinearBias` -/

/-- Candidates with equal times have equal targets. -/
def CandidateTiesSettled (edges : List Edge) (isDirected : Bool) (u : Nat) (tPrev : Int) : Prop :=
  ∀ x ∈ inbound edges isDirected u, ∀ y ∈ inbound edges isDirected u, x.1 = y.1 → x.1 < tPrev → x.2 = y.2

section linear

variable {S : StdSort} {edges edges' : List Edge} {numVertices : Int} {isDirected : Bool}
  (hin : EndpointsIn edges (vertexCount edges numVertices)) {u : Nat} (hu : u < vertexCount edges numVertices)
  {tPrev : Int}

include hin hu

theorem linear_sameStepLaw_iff (hperm : edges'.Perm edges) :
    SameStepLaw (serialGraph S edges numVertices isDirected) (serialGraph S edges' numVertices isDirected) linearBias u
      tPrev ↔
    ∀ s, shareOf ((serialGraph S edges numVertices isDirected).candidates u tPrev) rankWeight s =
      shareOf ((serialGraph S edges' numVertices isDirected).candidates u tPrev) rankWeight s := by
  have hg : (serialGraph S edges numVertices isDirected).WellFormed := serialGraph_wellFormed S isDirected hin
  have hun : u < (serialGraph S edges numVertices isDirected).numVertices :=
    lt_numVertices S isDirected hin hu
  have hlen := (candidates_perm S isDirected hin hu tPrev hperm).length_eq
  have hle : ((serialGraph S edges numVertices isDirected).candidates u tPrev).length ≤
      ((serialGraph S edges numVertices isDirected).timestampsOf u).length := by
    rw [length_candidates hg hun, hg.length_timestamps u hun]
    exact hg.candidateSetLen_le hun tPrev
  rw [sameStepLaw_iff hin hu hperm linearBias_exact]
  apply forall_congr'
  intro s
  rw [shareOf_congr fun i hi => getD_linearBias (hi.trans_le hle),
    shareOf_congr fun i hi => getD_linearBias (hi.trans_le (hlen.trans_le hle))]

theorem mem_candidates {e : Entry} : e ∈ (serialGraph S edges numVertices isDirected).candidates u tPrev ↔
    e ∈ inbound edges isDirected u ∧ e.1 < tPrev := by
  rw [candidates_eq_filter (serialGraph_wellFormed S isDirected hin) (lt_numVertices S isDirected hin hu),
    List.mem_filter, (entriesOf_perm_inbound S isDirected hin hu).mem_iff, decide_eq_true_eq]

theorem candidates_sorted :
    ((serialGraph S edges numVertices isDirected).candidates u tPrev).Pairwise fun x y => x.1 ≤ y.1 := by
  have hsorted := (serialGraph_wellFormed S isDirected hin).sorted u (lt_numVertices S isDirected hin hu)
  rw [timestampsOf_serialGraph S isDirected hin hu, List.pairwise_map] at hsorted
  exact hsorted.sublist (List.take_sublist _ _)

theorem candidates_eq_of_settled (hties : CandidateTiesSettled edges isDirected u tPrev) (hperm : edges'.Perm edges) :
    (serialGraph S edges' numVertices isDirected).candidates u tPrev =
      (serialGraph S edges numVertices isDirected).candidates u tPrev := by
  have hcandidates := candidates_perm S isDirected hin hu tPrev hperm
  have hu' : u < vertexCount edges' numVertices := by rwa [vertexCount_perm hperm]
  refine List.Perm.eq_of_pairwise (fun x y hx hy hxy hyx => ?_) (candidates_sorted (hin.perm hperm) hu')
    (candidates_sorted hin hu) hcandidates
  have hx := (mem_candidates hin hu).mp (hcandidates.mem_iff.mp hx)
  have hy := (mem_candidates hin hu).mp hy
  have htime : x.1 = y.1 := le_antisymm hxy hyx
  exact Prod.ext htime (hties x hx.1 y hy.1 htime hx.2)

theorem candidates_eq_map {xs : List Entry} (hxs : arrivals (edges.flatMap (captures isDirected)) u = xs) :
    (serialGraph S edges numVertices isDirected).candidates u tPrev =
      ((S.order (xs.map Prod.fst)).filter fun i => (xs.map Prod.fst).getD i 0 < tPrev).map fun i => xs.getD i (0, 0) := by
  have hkeys : ∀ i, (xs.getD i (0, 0)).1 = (xs.map Prod.fst).getD i 0 := fun i => (List.getD_map xs (0, 0) Prod.fst).symm
  rw [candidates_eq_filter (serialGraph_wellFormed S isDirected hin) (lt_numVertices S isDirected hin hu),
    entriesOf_serialGraph S isDirected hin hu, hxs, S.sort_eq_map _ _ (0, 0), List.filter_map]
  simp only [Function.comp_def, hkeys]

end linear

section exchanged

variable {S : StdSort} {edges₁ edges₂ : List Edge} {numVertices : Int} {isDirected : Bool}
  (hin₁ : EndpointsIn edges₁ (vertexCount edges₁ numVertices)) (hin₂ : EndpointsIn edges₂ (vertexCount edges₂ numVertices))
  {u : Nat} (hu₁ : u < vertexCount edges₁ numVertices) (hu₂ : u < vertexCount edges₂ numVertices) {tPrev : Int}
  {a b : Entry} {mid rest : List Entry}
  (h₁ : arrivals (edges₁.flatMap (captures isDirected)) u = a :: (mid ++ b :: rest))
  (h₂ : arrivals (edges₂.flatMap (captures isDirected)) u = b :: (mid ++ a :: rest))

include hin₁ hin₂ hu₁ hu₂ h₁ h₂

theorem rankMass_candidates_ne (htime : a.1 = b.1) (hbefore : a.1 < tPrev) (hne : a.2 ≠ b.2) :
    rankMass ((serialGraph S edges₁ numVertices isDirected).candidates u tPrev) a ≠
      rankMass ((serialGraph S edges₂ numVertices isDirected).candidates u tPrev) a := by
  have hab : b ≠ a := fun h => hne (congrArg Prod.snd h).symm
  have hkeys : (b :: (mid ++ a :: rest)).map Prod.fst = (a :: (mid ++ b :: rest)).map Prod.fst := by
    simp [htime]
  rw [candidates_eq_map hin₁ hu₁ h₁, candidates_eq_map hin₂ hu₂ h₂, hkeys]
  set keys := (a :: (mid ++ b :: rest)).map Prod.fst with hkeysdef
  have hlast : mid.length + 1 < keys.length := by simp [hkeysdef]
  have hmem : ∀ i < keys.length, keys.getD i 0 < tPrev →
      i ∈ (S.order keys).filter fun i => keys.getD i 0 < tPrev := by
    intro i hi hlt
    exact List.mem_filter.mpr ⟨(S.order_perm keys).mem_iff.mpr (List.mem_range.mpr hi), by simpa using hlt⟩
  have hnodup : ((S.order keys).filter fun i => keys.getD i 0 < tPrev).Nodup :=
    ((S.order_perm keys).nodup_iff.mpr List.nodup_range).filter _
  have hpick : ∀ x y : Entry, (x :: (mid ++ y :: rest)).getD (mid.length + 1) (0, 0) = y := by
    intro x y
    rw [List.getD_cons_succ, List.getD_append_right _ _ _ _ le_rfl, Nat.sub_self]
    rfl
  have hkey : keys.getD (mid.length + 1) 0 = b.1 :=
    (List.getD_map _ (0, 0) Prod.fst).trans (congrArg Prod.fst (hpick a b))
  refine rankMass_exchange_ne hnodup (hmem 0 (by omega) (by simpa [hkeysdef] using hbefore))
    (hmem (mid.length + 1) hlast (by omega)) (by omega) rfl ?_ hab (hpick b a) fun k _ h0 hk => ?_
  · rw [hpick]
    exact hab
  · rw [getD_exchange mid rest h0 hk]

theorem shareOf_candidates_ne (hperm : edges₂.Perm edges₁) (htime : a.1 = b.1) (hbefore : a.1 < tPrev) (hne : a.2 ≠ b.2) :
    shareOf ((serialGraph S edges₁ numVertices isDirected).candidates u tPrev) rankWeight (stepTo a) ≠
      shareOf ((serialGraph S edges₂ numVertices isDirected).candidates u tPrev) rankWeight (stepTo a) := by
  intro h
  have hmem : a ∈ (serialGraph S edges₁ numVertices isDirected).candidates u tPrev := by
    apply (mem_candidates hin₁ hu₁).mpr
    refine ⟨(arrivals_perm_inbound edges₁ isDirected u).mem_iff.mp ?_, hbefore⟩
    rw [h₁]
    exact List.mem_cons_self
  have hlen := (candidates_perm S isDirected hin₁ hu₁ tPrev hperm).length_eq
  exact rankMass_candidates_ne hin₁ hin₂ hu₁ hu₂ h₁ h₂ htime hbefore hne
    (rankMass_eq_of_shareOf (List.ne_nil_of_mem hmem) hlen h)

end exchanged

/-! ### Which laws are independent of the order -/

section invariant

variable (S : StdSort) {edges : List Edge} {numVertices : Int} (isDirected : Bool)
  (hin : EndpointsIn edges (vertexCount edges numVertices)) {u : Nat} (hu : u < vertexCount edges numVertices)
  (tPrev : Int)

include hin hu

theorem byTime_invariant {bias : Bias ℝ P} (hexact : ∀ ts, bias.ExactOnSlices ts) (htime : bias.ByTime) :
    PermutationInvariant S edges numVertices isDirected bias u tPrev :=
  fun _ hperm => sameStepLaw_of_byTime hin hu hperm hexact htime

/-- Ranks are the same for every order of the input exactly if the ties of the candidates are settled. -/
theorem linear_invariant_iff : PermutationInvariant S edges numVertices isDirected linearBias u tPrev ↔
    CandidateTiesSettled edges isDirected u tPrev := by
  constructor
  · intro h a ha b hb htime hbefore
    by_contra hne
    obtain ⟨edges₁, edges₂, mid, rest, hperm₁, hperm₂, h₁, h₂⟩ := exists_exchange ha hb hne
    have hlaw₁ := (linear_sameStepLaw_iff hin hu hperm₁).mp (h edges₁ hperm₁) (stepTo a)
    have hlaw₂ := (linear_sameStepLaw_iff hin hu hperm₂).mp (h edges₂ hperm₂) (stepTo a)
    exact shareOf_candidates_ne (hin.perm hperm₁) (hin.perm hperm₂) (by rwa [vertexCount_perm hperm₁])
      (by rwa [vertexCount_perm hperm₂]) h₁ h₂ (hperm₂.trans hperm₁.symm) htime hbefore hne (hlaw₁.symm.trans hlaw₂)
  · intro hties edges' hperm
    apply (linear_sameStepLaw_iff hin hu hperm).mpr
    intro s
    rw [candidates_eq_of_settled hin hu hties hperm]

end invariant

/-- **Which step laws are functions of the temporal graph.** Permuting the edges changes no probability under `UniformBias`
and `ExponentialBias`. Under `LinearBias`, whose ranks are positions of the sorted list, it changes none exactly if candidates
with equal times have equal targets. -/
theorem stepLaw_permutation (S : StdSort) {edges : List Edge} {numVertices : Int} (isDirected : Bool)
    (hin : EndpointsIn edges (vertexCount edges numVertices)) {u : Nat} (hu : u < vertexCount edges numVertices)
    (tPrev : Int) :
    PermutationInvariant S edges numVertices isDirected uniformBias u tPrev ∧
    (∀ bias : ExponentialBias ℝ,
      PermutationInvariant S edges numVertices isDirected (bias.toBias Real.exp) u tPrev) ∧
    (PermutationInvariant S edges numVertices isDirected linearBias u tPrev ↔
      CandidateTiesSettled edges isDirected u tPrev) :=
  ⟨byTime_invariant S isDirected hin hu tPrev uniformBias_exact uniformBias_byTime,
    fun bias => byTime_invariant S isDirected hin hu tPrev
      (fun ts => bias.toBias_exact (fun x => (Real.exp_pos x).le) Real.exp_zero ts) (bias.toBias_byTime Real.exp),
    linear_invariant_iff S isDirected hin hu tPrev⟩

theorem stepLaw_permutation_example :
    PermutationInvariant StdSort.stable [⟨0, 1, 5⟩, ⟨2, 1, 4⟩, ⟨1, 0, 3⟩] 3 false uniformBias 1 5 ∧
      PermutationInvariant StdSort.stable [⟨0, 1, 5⟩, ⟨2, 1, 4⟩, ⟨1, 0, 3⟩] 3 false (linearBias : Bias ℝ Unit) 1 5 := by
  have hin : EndpointsIn [⟨0, 1, 5⟩, ⟨2, 1, 4⟩, ⟨1, 0, 3⟩] (vertexCount [⟨0, 1, 5⟩, ⟨2, 1, 4⟩, ⟨1, 0, 3⟩] 3) := by
    unfold EndpointsIn
    decide
  obtain ⟨huniform, -, hlinear⟩ := stepLaw_permutation StdSort.stable false hin (u := 1) (by decide) 5
  exact ⟨huniform, hlinear.mpr (by unfold CandidateTiesSettled; decide)⟩

/-- Two edges into vertex 1 at one time: the order of the input decides which of them has rank two. -/
theorem linear_not_invariant :
    ¬ PermutationInvariant StdSort.stable [⟨0, 1, 5⟩, ⟨2, 1, 5⟩] 3 true (linearBias : Bias ℝ Unit) 1 6 := by
  have hin : EndpointsIn [⟨0, 1, 5⟩, ⟨2, 1, 5⟩] (vertexCount [⟨0, 1, 5⟩, ⟨2, 1, 5⟩] 3) := by
    unfold EndpointsIn
    decide
  rw [linear_invariant_iff StdSort.stable true hin (by decide)]
  unfold CandidateTiesSettled
  decide

end Tea
