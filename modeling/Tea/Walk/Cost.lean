import Tea.Lib.Requests
import Tea.Walk.WordLaw
/-!
# How many random numbers a walk takes

A hop of a plain walk takes at most three outputs of the generator, a node2vec hop up to 4096: 1024 proposals and their
coins. On average it is far fewer, as a proposal is accepted with probability `minRatio` at least: the rounds of the
rejection loop are a geometric series, whatever the tables propose (`retriesOf_cost_le`).
-/

namespace Tea

open Arith Laws Pcg64
open scoped ENNReal

variable {P : Type}

/-- The number of outputs that a program takes is decided by the first `k`, and if these are uniform and independent, its
mean is at most `c`. -/
def Pcg64.MeanOutputsAtMost {α : Type} (d : Draw ℝ α) (k : Nat) (c : ℝ≥0∞) : Prop :=
  (∀ rng : Pcg64, d.requests (generator ℝ).toGenerator rng = d.requests (decoder ℝ).generator (rng.outputs k)) ∧
    mean (tapes rawWord k) (fun tape => (d.requests (decoder ℝ).generator tape : ℝ≥0∞)) ≤ c

theorem Pcg64.meanOutputsAtMost_of {α : Type} {d : Draw ℝ α} {k : Nat} {c : ℝ≥0∞} (hcount : d.AtMost k)
    (h : d.cost rawWord (decoder ℝ) ≤ c) : MeanOutputsAtMost d k c := by
  refine ⟨fun rng => Draw.requests_eq_tape (fun _ => rfl) (fun _ => rfl) (fun _ _ => rfl) hcount rng, ?_⟩
  rwa [Draw.mean_requests rawWord (decoder ℝ) hcount]

/-- The cost of proposals and coins until one is accepted, with probability `κ` at least each time. -/
theorem retriesOf_cost_le {propose : Draw ℝ SampledStep} {k : Nat} (hpropose : propose.AtMost k) {accept : Int → ℝ}
    {κ : ℝ} (hκ : 0 < κ) (haccept : ∀ v, κ ≤ accept v ∧ accept v ≤ 1) (prevU : Int) (retries : Nat)
    (lastStep : SampledStep) : (retriesOf propose accept prevU retries lastStep).cost rawWord (decoder ℝ) ≤
      (k + 1 : Nat) / ENNReal.ofReal κ := by
  set E : ℝ≥0∞ := (k + 1 : Nat) / ENNReal.ofReal κ with hE
  have hκ1 : κ ≤ 1 := (haccept 0).1.trans (haccept 0).2
  have hseries : k + (ENNReal.ofReal (1 - κ) * E + 1) = E := by
    have hone : ENNReal.ofReal κ * E = (k + 1 : Nat) :=
      ENNReal.mul_div_cancel (ENNReal.ofReal_pos.mpr hκ).ne' ENNReal.ofReal_ne_top
    rw [add_comm (ENNReal.ofReal (1 - κ) * E), ← add_assoc, ← Nat.cast_add_one, ← hone, ← add_mul,
      ← ENNReal.ofReal_add hκ.le (by linarith), add_sub_cancel, ENNReal.ofReal_one, one_mul]
  induction retries generalizing lastStep with
  | zero => exact zero_le
  | succ retries ih =>
      rw [retriesOf, Draw.cost_bind]
      refine (add_le_add (hpropose.cost_le rawWord (decoder ℝ)) ?_).trans_eq hseries
      refine (mean_mono fun step _ => ?_).trans_eq (mean_const _ _)
      split_ifs
      · exact zero_le
      · exact zero_le
      -- the coin, and the rest of the loop if it says no
      obtain ⟨hlo, hhi⟩ := haccept step.v
      have hrest : ∀ x, (if lt ((decoder ℝ).u01 x) (accept step.v) = true then pure step
          else retriesOf propose accept prevU retries step).cost rawWord (decoder ℝ) ≤
          (if (decoder ℝ).u01 x < accept step.v then 0 else 1) * E := by
        intro x
        simp only [lt_exact, decide_eq_true_eq]
        split_ifs
        · exact zero_le
        · rw [one_mul]
          exact ih step
      refine add_le_add_left ((mean_mono fun x _ => hrest x).trans ?_) 1
      rw [mean_mul]
      have htails := (decoder_resolution.u01_coins (accept step.v) (hκ.le.trans hlo) hhi).2
      exact mul_le_mul_left (htails.trans (ENNReal.ofReal_le_ofReal (by linarith))) E

/-- **The mean number of outputs of a node2vec walk** is at most four over the smallest acceptance ratio for each hop, on
every graph, with whatever tables and neighbor sets. -/
theorem node2vecWalks_meanOutputs (exp : ℝ → ℝ) {self : Node2VecBias ℝ} (hp : 0 < self.p) (hq : 0 < self.q)
    (graph : TemporalGraph) (neighbors : NeighborSets) (n : Nat) (u tPrev prevU : Int) (scratch : SamplerScratch ℝ) :
    let bound := n * (4 / ENNReal.ofReal self.minRatio)
    (∀ pat : Pat ℝ (ExpParams ℝ), MeanOutputsAtMost (Prod.fst <$> hops (patNode2vecSampler exp graph pat self neighbors)
      n u tPrev prevU scratch) (n * 4096) bound) ∧
    ∀ hpat : Hpat ℝ (ExpParams ℝ), MeanOutputsAtMost (Prod.fst <$> hops (hpatNode2vecSampler exp graph hpat self
      neighbors) n u tPrev prevU scratch) (n * 4096) bound := by
  intro bound
  have hloop : ∀ propose : StepFn ℝ, (∀ u tPrev prevU, (propose u tPrev prevU).AtMost 3) →
      MeanOutputsAtMost (hopsOf (node2vecStep propose self neighbors) n u tPrev prevU) (n * 4096) bound := by
    intro propose hcount
    have hκ : 0 < self.minRatio := Node2VecBias.minRatio_pos hp hq
    have hatMost : ∀ w : Walker, (slotOf <$> node2vecStep propose self neighbors w.u w.tPrev w.prevU).AtMost 4096 := by
      intro w
      exact ((retriesOf_atMost (hcount w.u w.tPrev w.prevU) _ w.prevU kNode2VecMaxRetries .dead).mono (by decide)).map _
    have hcost : ∀ w : Walker, (slotOf <$> node2vecStep propose self neighbors w.u w.tPrev w.prevU).cost rawWord
        (decoder ℝ) ≤ 4 / ENNReal.ofReal self.minRatio := by
      intro w
      rw [Draw.cost_map]
      exact retriesOf_cost_le (hcount w.u w.tPrev w.prevU) hκ (fun v =>
        ⟨Node2VecBias.minRatio_le_acceptRatio self w.prevU neighbors v,
          Node2VecBias.acceptRatio_le_one w.prevU v neighbors⟩) w.prevU kNode2VecMaxRetries .dead
    have hprogram := hopsOf_eq_program (node2vecStep propose self neighbors) n ⟨u, tPrev, prevU⟩
    dsimp only at hprogram
    rw [hprogram]
    exact meanOutputsAtMost_of (Paths.program_atMost hatMost n _) (Paths.cost_program_le hcost n _)
  constructor
  · intro pat
    rw [fst_hops (patNode2vecSampler_returns exp graph self neighbors pat)]
    exact hloop _ fun u tPrev _ => (patChoice_atMost _ _ _ u.toNat tPrev).map _
  · intro hpat
    rw [fst_hops (hpatNode2vecSampler_returns exp graph self neighbors hpat)]
    exact hloop _ fun u tPrev _ => (hpatChoice_atMost _ _ _ u.toNat tPrev).map _

theorem node2vecWalks_meanOutputs_example :
    let edges : List Edge := [⟨0, 1, 5⟩, ⟨2, 1, 4⟩, ⟨1, 0, 3⟩]
    let graph := TemporalGraph.build StdSort.stable {} edges 3 false (Schedule.serial edges false)
    let self : Node2VecBias ℝ := { p := 1 / 2, q := 2, timescaleBound := 1 }
    MeanOutputsAtMost (Prod.fst <$> hops (patNode2vecSampler Real.exp graph (Pat.build {} graph (self.toBias Real.exp)
      kPatTrunkSizeMin (ForSchedule.serial _)) self (NeighborSets.build {} graph false (OutSchedule.serial graph))) 79 1
      kSentinelStartTimestamp (-1) {}) (79 * 4096) ((79 : Nat) * (4 / ENNReal.ofReal self.minRatio)) := by
  intro edges graph self
  have hp : 0 < self.p := by norm_num [self]
  have hq : 0 < self.q := by norm_num [self]
  exact (node2vecWalks_meanOutputs Real.exp hp hq graph _ 79 1 kSentinelStartTimestamp (-1) {}).1 _

end Tea
