import Tea.Walk.Input
import Tea.Walk.Node2vecLaw
/-!
# Which walks can happen

The laws of the walks say with which probability a walk happens; here is when it is positive. With positive weights it is
for exactly the walks that go against edges of the input, strictly back in time, and end before the limit only where no
edge leads further back (`walks_possible_iff`): the tables lose no walk, nor does rejection.
-/

namespace Tea

open Arith Laws
open scoped ENNReal

variable {P : Type}

/-! ### Paths of positive probability -/

theorem law_ne_zero_iff_hops {next : Walker → PMF (Option NodeStep)} {Inv : Walker → Prop}
    {Rel : NodeStep → NodeStep → Prop} {Ends : NodeStep → Prop}
    (hhop : ∀ w, Inv w → ∀ a, next w (some a) ≠ 0 ↔ Rel w.slot a) (hend : ∀ w, Inv w → (next w none ≠ 0 ↔ Ends w.slot))
    (hmove : ∀ w a, Inv w → Rel w.slot a → Inv (w.move a)) (n : Nat) {w : Walker} (hw : Inv w)
    (rest : List NodeStep) : Paths.law next Walker.move n w rest ≠ 0 ↔ Hops Rel Ends n w.slot rest := by
  induction n generalizing w rest with
  | zero =>
      cases rest with
      | nil =>
          have hone : Paths.law next Walker.move 0 w [] = 1 := PMF.pure_apply_self []
          rw [hone]
          exact iff_of_true one_ne_zero (.full w.slot)
      | cons a rest =>
          have hzero : Paths.law next Walker.move 0 w (a :: rest) = 0 := PMF.pure_apply_of_ne _ _ (List.cons_ne_nil a rest)
          rw [hzero]
          exact iff_of_false (fun h => h rfl) fun h => nomatch h
  | succ n ih =>
      cases rest with
      | nil =>
          rw [Paths.law_succ_nil, hend w hw]
          exact ⟨.ended, fun h => by cases h with | ended h => exact h⟩
      | cons a rest =>
          rw [Paths.law_succ_cons, mul_ne_zero_iff, hhop w hw]
          constructor
          · rintro ⟨hrel, hrest⟩
            exact .hop hrel ((ih (hmove w a hw hrel) rest).mp hrest)
          · intro h
            cases h with
            | hop hrel hrest => exact ⟨hrel, (ih (hmove w a hw hrel) rest).mpr hrest⟩

/-! ### Hops along entries with positive weights -/

section positive

variable {es : List Entry} {w : Nat → ℝ} (hw : ∀ i, 0 ≤ w i) (hpos : ∀ i < es.length, 0 < w i)

include hpos in
theorem sum_ne_zero_of_pos (hne : es ≠ []) : ∑ i ∈ Finset.range es.length, w i ≠ 0 := by
  have hlen : (Finset.range es.length).Nonempty := Finset.nonempty_range_iff.mpr (by simpa using hne)
  exact (Finset.sum_pos (fun i hi => hpos i (Finset.mem_range.mp hi)) hlen).ne'

include hw hpos

theorem hopAlong_some_ne_zero_iff (a : NodeStep) : hopAlong es w (some a) ≠ 0 ↔ ∃ e ∈ es, slotTo e = a := by
  classical
  refine ⟨mem_of_hopAlong, ?_⟩
  rintro ⟨e, he, rfl⟩
  obtain ⟨i, hi, rfl⟩ := List.mem_iff_getElem.mp he
  have hsum := sum_ne_zero_of_pos hpos (List.ne_nil_of_mem he)
  have htotal := (Finset.sum_nonneg fun i (_ : i ∈ Finset.range es.length) => hw i).lt_of_ne' hsum
  rw [← mean_single, mean_hopAlong es hw, if_neg hsum]
  intro hzero
  have hterm := Finset.sum_eq_zero_iff.mp hzero i (Finset.mem_range.mpr hi)
  rw [List.getD_eq_getElem _ _ hi, if_pos rfl, mul_one, ENNReal.ofReal_eq_zero] at hterm
  exact absurd hterm (not_le.mpr (div_pos (hpos i hi) htotal))

theorem hopAlong_none_ne_zero_iff : hopAlong es w none ≠ 0 ↔ es = [] := by
  classical
  rw [← mean_single, mean_hopAlong es hw]
  constructor
  · intro h
    by_contra hne
    rw [if_neg (sum_ne_zero_of_pos hpos hne)] at h
    exact h (Finset.sum_eq_zero fun i _ => by rw [if_neg (Option.some_ne_none _), mul_zero])
  · rintro rfl
    simp

end positive

/-! ### The walkers of the samplers -/

section walkers

variable {graph : TemporalGraph} (hg : graph.WellFormed) {edges : List Edge} {isDirected : Bool}
  (hstores : StoresInput graph edges graph.numVertices isDirected)

include hg hstores

theorem mem_candidates_iff_follows {w : Walker} (hw : w.InGraph graph) (b : NodeStep) :
    (∃ e ∈ graph.candidates w.u.toNat w.tPrev, slotTo e = b) ↔ Follows edges isDirected w.slot b := by
  have hu : w.u.toNat < graph.numVertices := InGraph.toNat_lt hw
  have hfilter := candidates_eq_filter hg hu w.tPrev
  rw [← mem_entriesOf_iff_follows hstores hw]
  constructor
  · rintro ⟨e, he, rfl⟩
    rw [hfilter] at he
    obtain ⟨hmem, htime⟩ := List.mem_filter.mp he
    exact ⟨hmem, of_decide_eq_true htime⟩
  · rintro ⟨hmem, htime⟩
    refine ⟨(b.t, b.v), ?_, rfl⟩
    rw [hfilter]
    exact List.mem_filter.mpr ⟨hmem, decide_eq_true htime⟩

theorem candidates_eq_nil_iff_follows {w : Walker} (hw : w.InGraph graph) :
    graph.candidates w.u.toNat w.tPrev = [] ↔ ∀ b, ¬ Follows edges isDirected w.slot b := by
  simp only [← mem_candidates_iff_follows hg hstores hw, List.eq_nil_iff_forall_not_mem]
  constructor
  · rintro h b ⟨e, he, -⟩
    exact h e he
  · exact fun h e he => h (slotTo e) ⟨e, he, rfl⟩

theorem follows_inGraph {w : Walker} {a : NodeStep} (hw : w.InGraph graph) (ha : Follows edges isDirected w.slot a) :
    (w.move a).InGraph graph := by
  obtain ⟨e, he, rfl⟩ := (mem_candidates_iff_follows hg hstores hw a).mpr ha
  exact candidates_target hg hw he

/-- **Hops of positive probability** lead to the right slots, for whatever law gives the same slots as `hopLaw`. -/
theorem law_ne_zero_iff_follows {bias : Bias ℝ P} (hpos : bias.Positive) {next : Walker → PMF (Option NodeStep)}
    (hnext : ∀ w : Walker, w.InGraph graph → ∀ x, next w x ≠ 0 ↔ hopLaw graph bias w x ≠ 0) (n : Nat) {w : Walker}
    (hw : w.InGraph graph) (rest : List NodeStep) : Paths.law next Walker.move n w rest ≠ 0 ↔
      Hops (Follows edges isDirected) (fun a => ∀ b, ¬ Follows edges isDirected a b) n w.slot rest := by
  have hlt : ∀ ts, ∀ x ∈ bias.fullWeights ts, 0 < x := fun ts x hx => by simpa using hpos _ _ _ x hx
  have hweights : ∀ w : Walker, w.InGraph graph → ∀ i < (graph.candidates w.u.toNat w.tPrev).length,
      0 < (bias.fullWeights (graph.timestampsOf w.u.toNat)).getD i 0 := by
    intro w hw i hi
    have hu : w.u.toNat < graph.numVertices := InGraph.toNat_lt hw
    rw [length_candidates hg hu] at hi
    have hlen : i < (bias.fullWeights (graph.timestampsOf w.u.toNat)).length := by
      rw [bias.length_fullWeights, hg.length_timestamps _ hu]
      exact hi.trans_le (hg.candidateSetLen_le hu w.tPrev)
    rw [List.getD_eq_getElem _ _ hlen]
    exact hlt _ _ (List.getElem_mem hlen)
  have hnonneg : ∀ w : Walker, ∀ i, 0 ≤ (bias.fullWeights (graph.timestampsOf w.u.toNat)).getD i 0 :=
    fun w i => getD_nonneg (fun x hx => (hlt _ x hx).le) i
  apply law_ne_zero_iff_hops _ _ (fun w a hw ha => follows_inGraph hg hstores hw ha) n hw
  · intro w hw a
    rw [hnext w hw, hopLaw, hopAlong_some_ne_zero_iff (hnonneg w) (hweights w hw),
      mem_candidates_iff_follows hg hstores hw]
  · intro w hw
    rw [hnext w hw, hopLaw, hopAlong_none_ne_zero_iff (hnonneg w) (hweights w hw),
      candidates_eq_nil_iff_follows hg hstores hw]

omit hstores in
theorem node2vecLaw_ne_zero_iff {exp : ℝ → ℝ} {self : Node2VecBias ℝ} (hp : 0 < self.p) (hq : 0 < self.q)
    (neighbors : NeighborSets) {w : Walker} (hw : w.InGraph graph) (x : Option NodeStep) :
    (node2vecLaw graph neighbors exp self w).map slotOf x ≠ 0 ↔ hopLaw graph (self.toBias exp) w x ≠ 0 := by
  have hstep : ∀ s, node2vecLaw graph neighbors exp self w s ≠ 0 ↔ stepLaw graph (self.toBias exp) w s ≠ 0 := by
    intro s
    refine ⟨node2vecLaw_proposed, fun hs => ?_⟩
    unfold node2vecLaw
    split_ifs
    · exact hs
    · exact rejection_ne_zero _ _ (Node2VecBias.accept_ne_zero hp hq w.prevU neighbors) 1023 hs
  rw [hopLaw, ← map_slotOf_stepAlong fun e he => candidates_live hg hw he, ← PMF.mem_support_iff, ← PMF.mem_support_iff,
    PMF.mem_support_map_iff, PMF.mem_support_map_iff]
  simp only [PMF.mem_support_iff, hstep]
  rfl

end walkers

/-- **Which walks can happen.** With positive weights all four samplers give a positive probability to exactly the walks
against edges of the input, strictly back in time, that end before the limit only where no edge leads further back. The
neighbor sets of node2vec, even wrong ones, neither exclude a walk nor admit one. -/
theorem walks_possible_iff (S : StdSort) (graph₀ : TemporalGraph) {edges : List Edge} {numVertices : Int}
    {isDirected : Bool} (σ : Schedule edges isDirected) (hin : EndpointsIn edges (vertexCount edges numVertices)) {u : Int}
    (hu : 0 ≤ u ∧ u < vertexCount edges numVertices) (n : Nat) (rest : List NodeStep) (scratch : SamplerScratch ℝ) :
    let graph := TemporalGraph.build S graph₀ edges numVertices isDirected σ
    let possible := Hops (Follows edges isDirected) (fun a => ∀ b, ¬ Follows edges isDirected a b) n
      ⟨u, kSentinelStartTimestamp⟩ rest
    (∀ bias : Bias ℝ P, bias.Positive → (∀ ts, bias.RestrictsOnSlices ts (bias.fullWeights ts)) →
      ∀ sample, BuiltSampler graph bias sample →
        ((Prod.fst <$> hops sample n u kSentinelStartTimestamp (-1) scratch).prob (· = rest) ≠ 0 ↔ possible)) ∧
    ∀ (exp : ℝ → ℝ) (self : Node2VecBias ℝ) (neighbors : NeighborSets), (∀ x, 0 < exp x) → exp 0 = 1 → 0 < self.p →
      0 < self.q → ∀ sample, BuiltNode2vec graph exp self neighbors sample →
        ((Prod.fst <$> hops sample n u kSentinelStartTimestamp (-1) scratch).prob (· = rest) ≠ 0 ↔ possible) := by
  intro graph possible
  obtain ⟨hg, hn, hstores⟩ : graph.WellFormed ∧ graph.numVertices = vertexCount edges numVertices ∧
      StoresInput graph edges graph.numVertices isDirected := build_walkable S graph₀ σ hin
  have hw : (Walker.ofStart u).InGraph graph := Walker.inGraph_of_lt hn hu
  have hprob : ∀ {d : Draw ℝ (List NodeStep)} {law : PMF (List NodeStep)}, d.HasLaw law →
      (law rest ≠ 0 ↔ possible) → (d.prob (· = rest) ≠ 0 ↔ possible) := by
    intro d law hlaw hpossible
    rwa [hlaw.prob_eq]
  clear_value graph
  constructor
  · intro bias hpos hrestrict sample hsample
    have hexact : ∀ ts, bias.ExactOnSlices ts := fun ts => ⟨stepWeights_of_positive hpos ts, hrestrict ts⟩
    apply hprob (hsample.hops_hasLaw hg hexact n hw scratch)
    exact law_ne_zero_iff_follows hg hstores hpos (fun w hw x => Iff.rfl) n hw rest
  · intro exp self neighbors hexp hzero hp hq sample hsample
    have hpos : (self.toBias exp).Positive := ExponentialBias.toBias_positive (fun x => by simpa using hexp x) _
    apply hprob (hsample.hops_hasLaw hg (fun x => (hexp x).le) hzero hp hq n hw scratch)
    exact law_ne_zero_iff_follows hg hstores hpos
      (fun w hw x => node2vecLaw_ne_zero_iff hg hp hq neighbors hw x) n hw rest

theorem walks_possible_iff_example :
    let edges : List Edge := [⟨0, 1, 5⟩, ⟨2, 1, 4⟩, ⟨1, 0, 3⟩]
    let graph := TemporalGraph.build StdSort.stable {} edges 3 true (Schedule.serial edges true)
    let self : Node2VecBias ℝ := { p := 1 / 2, q := 2 }
    let rest : List NodeStep := [⟨0, 5⟩, ⟨1, 3⟩]
    let possible := Hops (Follows edges true) (fun a => ∀ b, ¬ Follows edges true a b) 79 ⟨1, kSentinelStartTimestamp⟩ rest
    ((Prod.fst <$> hops (patSampler graph (Pat.build {} graph linearBias kPatTrunkSizeMin (ForSchedule.serial _))
      linearBias) 79 1 kSentinelStartTimestamp (-1) {}).prob (· = rest) ≠ 0 ↔ possible) ∧
    ((Prod.fst <$> hops (patNode2vecSampler Real.exp graph (Pat.build {} graph (self.toBias Real.exp) kPatTrunkSizeMin
      (ForSchedule.serial _)) self {}) 79 1 kSentinelStartTimestamp (-1) {}).prob (· = rest) ≠ 0 ↔ possible) := by
  intro edges graph self rest possible
  obtain ⟨hplain, hnode2vec⟩ := walks_possible_iff StdSort.stable {} (Schedule.serial edges true)
    (show EndpointsIn edges (vertexCount edges 3) by unfold EndpointsIn; decide) (u := 1) (by decide) 79 rest {}
  exact ⟨hplain linearBias linearBias_positive linearBias_restricts _
      (.pat {} kPatTrunkSizeMin (ForSchedule.serial _)),
    hnode2vec Real.exp self {} Real.exp_pos Real.exp_zero (by norm_num [self]) (by norm_num [self]) _
      (.pat {} kPatTrunkSizeMin (ForSchedule.serial _))⟩

end Tea
