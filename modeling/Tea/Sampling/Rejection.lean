import Tea.Sampling.Node2Vec
import Tea.Sampling.Sampler
/-!
# Rejection sampling for node2vec

`rejectionLoop` repeats a proposal until a coin accepts it. A dead proposal and a first step (no previous vertex)
are returned at once; after `kNode2VecMaxRetries` rejections the last proposal is taken.
-/

namespace Tea

open Arith

variable {R P : Type} [Arith R]

/-- The retries of `rejection_loop`; `accept v` is the acceptance ratio of a step to `v`. -/
def rejectionRetries (propose : SamplerScratch R → Draw R (SampledStep × SamplerScratch R)) (accept : Int → R)
    (prevU : Int) : (retries : Nat) → (lastStep : SampledStep) → SamplerScratch R →
      Draw R (SampledStep × SamplerScratch R)
  | 0, lastStep, scratch => return (lastStep, scratch)
  | retries + 1, _, scratch => do
      let (step, scratch) ← propose scratch
      if step.v = kWalkDeadSentinel then return (step, scratch)
      else if prevU < 0 then return (step, scratch)
      else
        let u01 ← Draw.nextU01
        if lt u01 (accept step.v) then return (step, scratch)
        else rejectionRetries propose accept prevU retries step scratch

/-- `rejection_loop`. -/
def rejectionLoop (propose : SamplerScratch R → Draw R (SampledStep × SamplerScratch R)) (bias : Node2VecBias R)
    (prevU : Int) (neighbors : NeighborSets) (scratch : SamplerScratch R) :
    Draw R (SampledStep × SamplerScratch R) :=
  rejectionRetries propose (fun v => bias.acceptRatio prevU v neighbors) prevU kNode2VecMaxRetries .dead scratch

/-- `sample_pat_node2vec`; `exp` is `std::exp`. -/
def samplePatNode2vec (exp : R → R) (graph : TemporalGraph) (pat : Pat R (ExpParams R)) (bias : Node2VecBias R)
    (neighbors : NeighborSets) (u tPrev prevU : Int) (scratch : SamplerScratch R) :
    Draw R (SampledStep × SamplerScratch R) :=
  rejectionLoop (samplePat graph pat (bias.toBias exp) u tPrev) bias prevU neighbors scratch

/-- `sample_hpat_node2vec`. -/
def sampleHpatNode2vec (exp : R → R) (graph : TemporalGraph) (hpat : Hpat R (ExpParams R)) (bias : Node2VecBias R)
    (neighbors : NeighborSets) (u tPrev prevU : Int) (scratch : SamplerScratch R) :
    Draw R (SampledStep × SamplerScratch R) :=
  rejectionLoop (sampleHpat graph hpat (bias.toBias exp) u tPrev) bias prevU neighbors scratch

/-! ### The loop without scratch -/

/-- `rejectionRetries` for a proposal without scratch. -/
def retriesOf (propose : Draw R SampledStep) (accept : Int → R) (prevU : Int) :
    (retries : Nat) → (lastStep : SampledStep) → Draw R SampledStep
  | 0, lastStep => return lastStep
  | retries + 1, _ => do
      let step ← propose
      if step.v = kWalkDeadSentinel then return step
      else if prevU < 0 then return step
      else
        let u01 ← Draw.nextU01
        if lt u01 (accept step.v) then return step
        else retriesOf propose accept prevU retries step

theorem fst_rejectionRetries {propose : SamplerScratch R → Draw R (SampledStep × SamplerScratch R)}
    {propose' : Draw R SampledStep} (h : ∀ scratch, Prod.fst <$> propose scratch = propose') (accept : Int → R)
    (prevU : Int) (retries : Nat) (lastStep : SampledStep) (scratch : SamplerScratch R) :
    Prod.fst <$> rejectionRetries propose accept prevU retries lastStep scratch =
      retriesOf propose' accept prevU retries lastStep := by
  induction retries generalizing lastStep scratch with
  | zero => rfl
  | succ retries ih =>
      rw [rejectionRetries, retriesOf, ← h scratch]
      refine Draw.fst_bind _ _ _ fun step scratch => ?_
      dsimp only
      split_ifs with hdead hfirst
      · rfl
      · rfl
      · rw [map_bind]
        refine bind_congr fun u01 => ?_
        split_ifs with haccept
        · rfl
        · rw [h, ih step scratch]

theorem retriesOf_all {U : R → Prop} {Q : SampledStep → Prop} {propose : Draw R SampledStep}
    (h : propose.All U Q) (accept : Int → R) (prevU : Int) (retries : Nat) (lastStep : SampledStep)
    (hlast : retries = 0 → Q lastStep) : (retriesOf propose accept prevU retries lastStep).All U Q := by
  induction retries generalizing lastStep with
  | zero => exact hlast rfl
  | succ retries ih =>
      refine h.bind fun step hstep => ?_
      split_ifs with hdead hfirst
      · exact hstep
      · exact hstep
      · rw [Draw.nextU01_bind, Draw.all_u01]
        intro u01 _
        split_ifs with haccept
        · exact hstep
        · exact ih step fun _ => hstep

end Tea
