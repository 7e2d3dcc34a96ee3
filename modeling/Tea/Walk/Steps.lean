import Tea.Sampling.Choice
import Tea.Walk.Engine
/-!
# Steps and walks

What the four samplers return, on the tables of a well-formed graph, is a valid step: dead, or along a stored edge of
`u` that is earlier than `t_prev` (`ValidStep`). With positive weights it is dead exactly if there is no candidate
(`LiveStep`). `Hops` describes the walks whose steps are of such a kind; the step loop yields only such walks
(`hopsOf_hops`).
-/

namespace Tea

open Arith

variable {R P σ : Type} [Arith R]

/-! ### The samplers without scratch -/

/-- `samplePat` without its scratch. -/
def patStep (graph : TemporalGraph) (pat : Pat R P) (bias : Bias R P) : StepFn R :=
  fun u tPrev _ => stepOf graph u.toNat <$> patChoice graph pat bias u.toNat tPrev

/-- `sampleHpat` without its scratch. -/
def hpatStep (graph : TemporalGraph) (hpat : Hpat R P) (bias : Bias R P) : StepFn R :=
  fun u tPrev _ => stepOf graph u.toNat <$> hpatChoice graph hpat bias u.toNat tPrev

/-- The rejection loop around the proposals of another sampler. -/
def node2vecStep (propose : StepFn R) (bias : Node2VecBias R) (neighbors : NeighborSets) : StepFn R :=
  fun u tPrev prevU => retriesOf (propose u tPrev prevU) (fun v => bias.acceptRatio prevU v neighbors) prevU
    kNode2VecMaxRetries .dead

theorem patSampler_returns (graph : TemporalGraph) (pat : Pat R P) (bias : Bias R P) :
    (patSampler graph pat bias).Returns (patStep graph pat bias) :=
  fun u tPrev _ scratch => fst_samplePat graph pat bias u tPrev scratch

theorem hpatSampler_returns (graph : TemporalGraph) (hpat : Hpat R P) (bias : Bias R P) :
    (hpatSampler graph hpat bias).Returns (hpatStep graph hpat bias) :=
  fun u tPrev _ scratch => fst_sampleHpat graph hpat bias u tPrev scratch

section node2vec

variable (exp : R → R) (graph : TemporalGraph) (bias : Node2VecBias R) (neighbors : NeighborSets)

theorem patNode2vecSampler_returns (pat : Pat R (ExpParams R)) :
    (patNode2vecSampler exp graph pat bias neighbors).Returns
      (node2vecStep (patStep graph pat (bias.toBias exp)) bias neighbors) :=
  fun u tPrev prevU scratch =>
    fst_rejectionRetries (fun scratch => fst_samplePat graph pat (bias.toBias exp) u tPrev scratch)
      (fun v => bias.acceptRatio prevU v neighbors) prevU kNode2VecMaxRetries .dead scratch

theorem hpatNode2vecSampler_returns (hpat : Hpat R (ExpParams R)) :
    (hpatNode2vecSampler exp graph hpat bias neighbors).Returns
      (node2vecStep (hpatStep graph hpat (bias.toBias exp)) bias neighbors) :=
  fun u tPrev prevU scratch =>
    fst_rejectionRetries (fun scratch => fst_sampleHpat graph hpat (bias.toBias exp) u tPrev scratch)
      (fun v => bias.acceptRatio prevU v neighbors) prevU kNode2VecMaxRetries .dead scratch

end node2vec

theorem node2vecStep_all {U : R → Prop} {Q : SampledStep → Prop} {propose : StepFn R} {u tPrev prevU : Int}
    (h : (propose u tPrev prevU).All U Q) (bias : Node2VecBias R) (neighbors : NeighborSets) :
    (node2vecStep propose bias neighbors u tPrev prevU).All U Q :=
  retriesOf_all h _ prevU kNode2VecMaxRetries .dead fun hzero => absurd hzero (by decide)

/-! ### Valid and live steps -/

/-- A slot holds a vertex of the graph. -/
def InGraph (graph : TemporalGraph) (a : NodeStep) : Prop := 0 ≤ a.v ∧ a.v < graph.numVertices

/-- From slot `a` to slot `b` along a stored edge of `a`'s vertex, strictly back in time. -/
def Hop (graph : TemporalGraph) (a b : NodeStep) : Prop :=
  InGraph graph a ∧ (b.t, b.v) ∈ graph.entriesOf a.v.toNat ∧ b.t < a.t

/-- No stored edge of the slot's vertex is earlier than the slot's timestamp. -/
def NoCandidate (graph : TemporalGraph) (a : NodeStep) : Prop := graph.candidateSetLen a.v.toNat a.t = 0

/-- A step from `a` is dead or a hop. -/
def ValidStep (graph : TemporalGraph) (a : NodeStep) (s : SampledStep) : Prop :=
  s.v ≠ kWalkDeadSentinel → Hop graph a ⟨s.v, s.t⟩ ∧ InGraph graph ⟨s.v, s.t⟩

/-- A step from `a` is dead exactly if `a` has no candidate. -/
def LiveStep (graph : TemporalGraph) (a : NodeStep) (s : SampledStep) : Prop :=
  s.v = kWalkDeadSentinel ↔ NoCandidate graph a

section steps

variable {graph : TemporalGraph} (hg : graph.WellFormed) {a : NodeStep} (ha : InGraph graph a)

include ha in
theorem InGraph.toNat_lt : a.v.toNat < graph.numVertices := by
  obtain ⟨hnonneg, hlt⟩ := ha
  omega

include hg ha

theorem stepOf_valid {choice : Option Int} (h : IsCandidate graph a.v.toNat a.t choice) :
    ValidStep graph a (stepOf graph a.v.toNat choice) := by
  intro hlive
  cases choice with
  | none => exact absurd rfl hlive
  | some pos =>
      obtain ⟨hnonneg, hlt⟩ := h pos rfl
      have hu := ha.toNat_lt
      have hpos : pos.toNat < graph.candidateSetLen a.v.toNat a.t := by omega
      have hdeg := hpos.trans_le (hg.candidateSetLen_le hu a.t)
      exact ⟨⟨ha, hg.entry_mem hu hdeg, (hg.timestamp_lt_iff hu a.t hdeg).mpr hpos⟩, hg.target_getD_mem hu hdeg⟩

theorem stepOf_live {choice : Option Int} (h : IsCandidate graph a.v.toNat a.t choice)
    (hlive : choice = none ↔ graph.candidateSetLen a.v.toNat a.t = 0) :
    LiveStep graph a (stepOf graph a.v.toNat choice) := by
  cases choice with
  | none => exact ⟨fun _ => hlive.mp rfl, fun _ => rfl⟩
  | some pos =>
      obtain ⟨hnonneg, hlt⟩ := h pos rfl
      have hu := ha.toNat_lt
      have hdeg : pos.toNat < graph.degree a.v.toNat := by
        have := hg.candidateSetLen_le hu a.t
        omega
      have htarget := (hg.target_getD_mem hu hdeg).1
      constructor
      · intro hdead
        change (graph.targetsOf a.v.toNat).getD pos.toNat 0 = -1 at hdead
        omega
      · intro hnone
        exact absurd (hlive.mpr hnone) (Option.some_ne_none pos)

variable {U : R → Prop}

theorem patStep_valid (hU : NonnegDraws U) (bias : Bias R P) (minTrunkSize : Int) (prevU : Int) :
    (patStep graph (Pat.tables graph bias minTrunkSize) bias a.v a.t prevU).All U (ValidStep graph a) :=
  Draw.all_map.mpr ((patChoice_candidate hg ha.toNat_lt hU).mono fun _ h => stepOf_valid hg ha h)

theorem hpatStep_valid {aux : AuxIndex} (haux : ServesCovers graph aux) (bias : Bias R P) (prevU : Int) :
    (hpatStep graph (Hpat.tables graph bias aux) bias a.v a.t prevU).All U (ValidStep graph a) :=
  Draw.all_map.mpr ((hpatChoice_candidate hg ha.toNat_lt haux U).mono fun _ h => stepOf_valid hg ha h)

variable [PosArith R] {bias : Bias R P} (hpos : PositiveAt graph bias a.v.toNat)

include hpos

theorem patStep_live (hU : NonnegDraws U) (minTrunkSize : Int) (prevU : Int) :
    (patStep graph (Pat.tables graph bias minTrunkSize) bias a.v a.t prevU).All U (LiveStep graph a) := by
  have hu := ha.toNat_lt
  refine Draw.all_map.mpr ?_
  rcases Nat.eq_zero_or_pos (graph.candidateSetLen a.v.toNat a.t) with hG | hG
  · rw [patChoice_empty _ hG]
    exact ⟨fun _ => hG, fun _ => rfl⟩
  · have hlive := patChoice_live hg hu U hG (patTotal_pos minTrunkSize hg hu hpos hG)
    refine ((patChoice_candidate hg hu hU).and hlive).mono fun choice h => stepOf_live hg ha h.1 ?_
    exact ⟨fun hnone => absurd hnone h.2, fun hzero => absurd hzero hG.ne'⟩

theorem hpatStep_live {aux : AuxIndex} (haux : ServesCovers graph aux) (prevU : Int) :
    (hpatStep graph (Hpat.tables graph bias aux) bias a.v a.t prevU).All U (LiveStep graph a) := by
  have hu := ha.toNat_lt
  refine Draw.all_map.mpr ?_
  rcases Nat.eq_zero_or_pos (graph.candidateSetLen a.v.toNat a.t) with hG | hG
  · rw [hpatChoice_empty _ hG]
    exact ⟨fun _ => hG, fun _ => rfl⟩
  · have hlive := hpatChoice_live hg hu haux U hG (hpatTotal_pos hg hu hpos hG)
    refine ((hpatChoice_candidate hg hu haux U).and hlive).mono fun choice h => stepOf_live hg ha h.1 ?_
    exact ⟨fun hnone => absurd hnone h.2, fun hzero => absurd hzero hG.ne'⟩

end steps

/-! ### Walks -/

/-- The walks of at most `n` hops from a slot: every hop is as `Rel` says, and a walk that ends early ends at a
slot where `Ends` holds. -/
inductive Hops (Rel : NodeStep → NodeStep → Prop) (Ends : NodeStep → Prop) : Nat → NodeStep → List NodeStep → Prop
  | full (a : NodeStep) : Hops Rel Ends 0 a []
  | ended {n : Nat} {a : NodeStep} (h : Ends a) : Hops Rel Ends (n + 1) a []
  | hop {n : Nat} {a b : NodeStep} {rest : List NodeStep} (h : Rel a b) (hrest : Hops Rel Ends n b rest) :
      Hops Rel Ends (n + 1) a (b :: rest)

namespace Hops

variable {Rel : NodeStep → NodeStep → Prop} {Ends : NodeStep → Prop} {n : Nat} {a : NodeStep} {rest : List NodeStep}

theorem rel (h : Hops Rel Ends n a rest) {k : Nat} (hk : k < rest.length) :
    Rel ((a :: rest).getD k ⟨0, 0⟩) (rest.getD k ⟨0, 0⟩) := by
  induction h generalizing k with
  | full a => exact absurd hk (Nat.not_lt_zero k)
  | ended h => exact absurd hk (Nat.not_lt_zero k)
  | hop h hrest ih =>
      cases k with
      | zero => exact h
      | succ k => exact ih (Nat.lt_of_succ_lt_succ hk)

theorem ends (h : Hops Rel Ends n a rest) (hn : rest.length < n) : Ends ((a :: rest).getD rest.length ⟨0, 0⟩) := by
  induction h with
  | full a => exact absurd hn (Nat.lt_irrefl 0)
  | ended h => exact h
  | hop h hrest ih => exact ih (Nat.lt_of_succ_lt_succ hn)

end Hops

omit [Arith R] in
/-- If every step from a slot of the graph is dead and the slot is an end, or a hop to a slot of the graph, the step
loop yields such walks. -/
theorem hopsOf_hops {U : R → Prop} {Rel : NodeStep → NodeStep → Prop} {Ends Dom : NodeStep → Prop} {step : StepFn R}
    (hstep : ∀ a prevU, Dom a → (step a.v a.t prevU).All U fun s =>
      if s.v = kWalkDeadSentinel then Ends a else Rel a ⟨s.v, s.t⟩ ∧ Dom ⟨s.v, s.t⟩)
    (steps : Nat) (a : NodeStep) (prevU : Int) (ha : Dom a) :
    (hopsOf step steps a.v a.t prevU).All U (Hops Rel Ends steps a) := by
  induction steps generalizing a prevU with
  | zero => exact .full a
  | succ steps ih =>
      rw [hopsOf]
      refine (hstep a prevU ha).bind fun s hs => ?_
      split_ifs at hs ⊢ with hdead
      · exact .ended hs
      · exact (ih ⟨s.v, s.t⟩ a.v hs.2).bind fun rest hrest => .hop hs.1 hrest

end Tea
