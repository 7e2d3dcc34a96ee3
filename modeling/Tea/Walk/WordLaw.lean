import Tea.Sampling.WordLaw
import Tea.Walk.Node2vecLaw
/-!
# Walks on 64-bit words

A walk of at most `n` hops is a function of the first `3 * n` outputs of its generator. If these are uniform and
independent, the law of the walk is within `n * stepError D` of the temporal random walk, where `D` bounds the degrees: per
hop, `2^-53` for each candidate that the double chooses among, `2^-64` for each entry of the table and `2^-24` for the
coin. A node2vec hop takes up to 4096 outputs, and its error is that of a proposal over the smallest acceptance ratio.
-/

namespace Tea

open Arith Laws Pcg64
open scoped ENNReal

variable {P : Type}

/-- A program is a function of the first `k` outputs of its generator, and if they are uniform and independent, its law is
within `ε` of `p`. -/
def Pcg64.WithinOnOutputs {α : Type} (d : Draw ℝ α) (k : Nat) (ε : ℝ≥0∞) (p : PMF α) : Prop :=
  (∀ rng : Pcg64, (d.run (generator ℝ).toGenerator rng).1 = (d.run (decoder ℝ).generator (rng.outputs k)).1) ∧
    Within ε ((tapes rawWord k).map fun tape => (d.run (decoder ℝ).generator tape).1) p

theorem Pcg64.withinOnOutputs_of {α : Type} {d : Draw ℝ α} {k : Nat} {ε : ℝ≥0∞} {p : PMF α} (hcount : d.AtMost k)
    (h : Within ε (d.tapeLaw rawWord (decoder ℝ)) p) : WithinOnOutputs d k ε p := by
  refine ⟨fun rng => run_eq_tape hcount rng, ?_⟩
  rwa [Draw.map_run_tapes rawWord (decoder ℝ) hcount]

theorem hopsOf_onWords {step : StepFn ℝ} {hop : Walker → PMF (Option NodeStep)} {Inv : Walker → Prop} {ε : ℝ≥0∞}
    (hstep : ∀ w, Inv w → Within ε ((slotOf <$> step w.u w.tPrev w.prevU).tapeLaw rawWord (decoder ℝ)) (hop w))
    (hmove : ∀ w a, Inv w → hop w (some a) ≠ 0 → Inv (w.move a)) {k : Nat}
    (hcount : ∀ u tPrev prevU, (step u tPrev prevU).AtMost k) (n : Nat) {w : Walker} (hw : Inv w) :
    WithinOnOutputs (hopsOf step n w.u w.tPrev w.prevU) (n * k) (n * ε) (Paths.law hop Walker.move n w) := by
  rw [hopsOf_eq_program]
  apply withinOnOutputs_of (Paths.program_atMost (fun w => (hcount w.u w.tPrev w.prevU).map slotOf) n w)
  rw [Paths.tapeLaw_program]
  exact Paths.within_law hstep hmove n w hw

section walk

variable {graph : TemporalGraph} (hg : graph.WellFormed) {bias : Bias ℝ P} (hexact : ∀ ts, bias.ExactOnSlices ts)
  {D : Nat} (hD : ∀ v < graph.numVertices, graph.degree v ≤ D) (hsmall : D < 2 ^ 32)

theorem stepOf_resolves {w : Walker} (ws : List ℝ) {choice : Draw ℝ (Option Int)} {η : ℝ≥0∞}
    (hdead : candidateTotal graph ws w.u.toNat w.tPrev = 0 → stepOf graph w.u.toNat <$> choice = pure .dead)
    (hchoice : candidateTotal graph ws w.u.toNat w.tPrev ≠ 0 → ResolvesRaw η choice) :
    ResolvesRaw η (stepOf graph w.u.toNat <$> choice) := by
  by_cases hS : candidateTotal graph ws w.u.toNat w.tPrev = 0
  · rw [hdead hS]
    exact (Draw.resolves_pure _).mono zero_le
  · exact (hchoice hS).map _

include hg hexact hD hsmall

theorem patStep_resolves (minTrunkSize : Int) {w : Walker} (hw : w.InGraph graph) :
    ResolvesRaw (stepError D) (patStep graph (Pat.tables graph bias minTrunkSize) bias w.u w.tPrev w.prevU) := by
  have hu : w.u.toNat < graph.numVertices := InGraph.toNat_lt hw
  have hdeg := hD _ hu
  obtain ⟨hweights, hrestrict⟩ := hexact (graph.timestampsOf w.u.toNat)
  have hstep := patChoice_exact hg hu w.tPrev hweights hrestrict minTrunkSize {}
  apply stepOf_resolves (bias.fullWeights (graph.timestampsOf w.u.toNat))
  · intro hS
    rw [← hstep.dead (.inr hS), fst_samplePat]
    rfl
  · intro hS
    exact (patChoice_resolves hg hu (hweights.length_eq_degree hg hu) hrestrict hweights.nonneg (by omega) hS).mono
      (stepError_mono hdeg)

theorem hpatStep_resolves {aux : AuxIndex} (haux : ServesCovers graph aux) {w : Walker} (hw : w.InGraph graph) :
    ResolvesRaw (stepError D) (hpatStep graph (Hpat.tables graph bias aux) bias w.u w.tPrev w.prevU) := by
  have hu : w.u.toNat < graph.numVertices := InGraph.toNat_lt hw
  have hdeg := hD _ hu
  obtain ⟨hweights, hrestrict⟩ := hexact (graph.timestampsOf w.u.toNat)
  have hstep := hpatChoice_exact hg hu w.tPrev hweights hrestrict.onPrefixes haux {}
  apply stepOf_resolves (bias.fullWeights (graph.timestampsOf w.u.toNat))
  · intro hS
    rw [← hstep.dead (.inr hS), fst_sampleHpat]
    rfl
  · intro hS
    exact (hpatChoice_resolves hg hu (hweights.length_eq_degree hg hu) hrestrict.onPrefixes hweights.nonneg haux
      (by omega) hS).mono (stepError_mono hdeg)

omit hexact hD hsmall in
theorem hop_onWords {step : StepFn ℝ} {w : Walker} (hw : w.InGraph graph)
    (hresolves : ResolvesRaw (stepError D) (step w.u w.tPrev w.prevU))
    (hlaw : (step w.u w.tPrev w.prevU).HasLaw (stepLaw graph bias w)) :
    Within (stepError D) ((slotOf <$> step w.u w.tPrev w.prevU).tapeLaw rawWord (decoder ℝ)) (hopLaw graph bias w) := by
  rw [hopLaw, ← map_slotOf_stepAlong fun e he => candidates_live hg hw he]
  exact (hresolves.map slotOf).within (hlaw.map slotOf)

end walk

/-! ### Node2vec -/

section retries

variable {propose : Draw ℝ SampledStep} {accept : Int → ℝ} {η : ℝ≥0∞}

/-- Proposals that are accepted with probability `κ` at least: the errors of the rounds are a geometric series. -/
theorem retriesOf_resolves (hpropose : ResolvesRaw η propose) {κ : ℝ} (hκ : 0 < κ) (hκ1 : κ ≤ 1)
    (haccept : ∀ v, κ ≤ accept v ∧ accept v ≤ 1) (prevU : Int) (retries : Nat) (lastStep : SampledStep) :
    ResolvesRaw ((η + ENNReal.ofReal (1 / (2 ^ 53 : Nat))) / ENNReal.ofReal κ)
      (retriesOf propose accept prevU retries lastStep) := by
  set E := (η + ENNReal.ofReal (1 / (2 ^ 53 : Nat))) / ENNReal.ofReal κ with hE
  have hseries : η + (ENNReal.ofReal (1 / (2 ^ 53 : Nat)) + ENNReal.ofReal (1 - κ) * E) = E := by
    have hone : ENNReal.ofReal κ * E = η + ENNReal.ofReal (1 / (2 ^ 53 : Nat)) :=
      ENNReal.mul_div_cancel (ENNReal.ofReal_pos.mpr hκ).ne' ENNReal.ofReal_ne_top
    rw [← add_assoc, ← hone, ← add_mul, ← ENNReal.ofReal_add hκ.le (by linarith), add_sub_cancel, ENNReal.ofReal_one,
      one_mul]
  induction retries generalizing lastStep with
  | zero => exact (Draw.resolves_pure _).mono zero_le
  | succ retries ih =>
      rw [retriesOf, ← hseries]
      apply hpropose.bind
      intro step
      split_ifs
      · exact (Draw.resolves_pure _).mono zero_le
      · exact (Draw.resolves_pure _).mono zero_le
      obtain ⟨hlo, hhi⟩ := haccept step.v
      have hcoin := Draw.resolves_coin_u01 decoder_resolution (hκ.le.trans hlo) hhi
        (fun u01 => if lt u01 (accept step.v) then pure step else retriesOf propose accept prevU retries step)
        (fun u01 => by simp only [lt_exact, decide_eq_true_eq]) (Draw.resolves_pure step) (ih step)
      apply hcoin.mono
      rw [mul_zero, zero_add]
      exact add_le_add_right (mul_le_mul_left (ENNReal.ofReal_le_ofReal (by linarith)) _) _

omit propose accept in
theorem retriesOf_atMost {R : Type} [Arith R] {propose : Draw R SampledStep} {k : Nat} (hpropose : propose.AtMost k)
    (accept : Int → R) (prevU : Int) (retries : Nat) (lastStep : SampledStep) :
    (retriesOf propose accept prevU retries lastStep).AtMost (retries * (k + 1)) := by
  induction retries generalizing lastStep with
  | zero => exact Draw.atMost_pure _ _
  | succ retries ih =>
      rw [retriesOf, Nat.succ_mul, Nat.add_comm, Nat.add_assoc]
      apply hpropose.bind
      intro step
      split_ifs
      · exact Draw.atMost_pure _ _
      · exact Draw.atMost_pure _ _
      · apply Draw.nextU01_atMost.bind
        intro u01
        split_ifs
        · exact Draw.atMost_pure _ _
        · exact ih step

end retries

section built

variable {graph : TemporalGraph} (hg : graph.WellFormed) {bias : Bias ℝ P} (hexact : ∀ ts, bias.ExactOnSlices ts)
  {sample : Sampler ℝ} (h : BuiltSampler graph bias sample) {step : StepFn ℝ} (hreturns : sample.Returns step)

include h hreturns

theorem BuiltSampler.step_atMost (u tPrev prevU : Int) : (step u tPrev prevU).AtMost 3 := by
  cases h with
  | pat =>
      rw [hreturns.unique (patSampler_returns graph _ bias)]
      exact (patChoice_atMost _ _ _ u.toNat tPrev).map _
  | hpat =>
      rw [hreturns.unique (hpatSampler_returns graph _ bias)]
      exact (hpatChoice_atMost _ _ _ u.toNat tPrev).map _

include hg hexact

theorem BuiltSampler.step_resolves {D : Nat} (hdegree : ∀ v < graph.numVertices, graph.degree v ≤ D) (hsmall : D < 2 ^ 32)
    {w : Walker} (hw : w.InGraph graph) : ResolvesRaw (stepError D) (step w.u w.tPrev w.prevU) := by
  cases h with
  | pat pat minTrunkSize τ =>
      rw [Pat.build_eq hg] at hreturns
      rw [hreturns.unique (patSampler_returns graph _ bias)]
      exact patStep_resolves hg hexact hdegree hsmall minTrunkSize hw
  | hpat hrenews τ τ' =>
      obtain ⟨aux, haux, htables⟩ := Hpat.build_renewed hg bias hrenews τ τ'
      rw [htables] at hreturns
      rw [hreturns.unique (hpatSampler_returns graph _ bias)]
      exact hpatStep_resolves hg hexact hdegree hsmall haux hw

omit hreturns in
theorem BuiltSampler.hops_onWords {D : Nat} (hdegree : ∀ v < graph.numVertices, graph.degree v ≤ D) (hsmall : D < 2 ^ 32)
    (n : Nat) {w : Walker} (hw : w.InGraph graph) (scratch : SamplerScratch ℝ) :
    WithinOnOutputs (Prod.fst <$> hops sample n w.u w.tPrev w.prevU scratch) (n * 3) (n * stepError D)
      (walkLaw graph bias n w) := by
  obtain ⟨step, hreturns⟩ := h.returns
  rw [fst_hops hreturns]
  exact hopsOf_onWords (fun w hw => hop_onWords hg hw (h.step_resolves hg hexact hreturns hdegree hsmall hw)
    (h.step_hasLaw hg hexact hreturns hw)) (fun w a hw ha => hopLaw_move hg hw ha) (h.step_atMost hreturns) n hw

end built

/-- **Both samplers walk on 64-bit words almost by the law of the temporal random walk**: on a built graph whose vertices
have at most `D` edges, from every vertex, for every limit on the hops, with every layout of the tables. -/
theorem walks_onWords (S : StdSort) (self : TemporalGraph) {edges : List Edge} {numVertices : Int} {isDirected : Bool}
    (σ : Schedule edges isDirected) (hin : EndpointsIn edges (vertexCount edges numVertices)) {D : Nat}
    (hD : ∀ v < vertexCount edges numVertices, (inbound edges isDirected v).length ≤ D) (hsmall : D < 2 ^ 32)
    {bias : Bias ℝ P} (hexact : ∀ ts, bias.ExactOnSlices ts) {u : Int} (hu : 0 ≤ u ∧ u < vertexCount edges numVertices)
    (n : Nat) :
    let graph := TemporalGraph.build S self edges numVertices isDirected σ
    ∀ sample, BuiltSampler graph bias sample → ∀ scratch : SamplerScratch ℝ,
      WithinOnOutputs (Prod.fst <$> hops sample n u kSentinelStartTimestamp (-1) scratch) (n * 3) (n * stepError D)
        (walkLaw graph bias n (Walker.ofStart u)) := by
  intro graph sample hsample scratch
  obtain ⟨hg, hn, hstores⟩ : graph.WellFormed ∧ graph.numVertices = vertexCount edges numVertices ∧
      StoresInput graph edges graph.numVertices isDirected := build_walkable S self σ hin
  have hw : (Walker.ofStart u).InGraph graph := Walker.inGraph_of_lt hn hu
  have hdegree : ∀ v < graph.numVertices, graph.degree v ≤ D :=
    fun v hv => (hstores.degree_eq hv).trans_le (hD v (hn ▸ hv))
  exact hsample.hops_onWords hg hexact hdegree hsmall n hw scratch

theorem walks_onWords_linear :
    let edges : List Edge := [⟨0, 1, 5⟩, ⟨2, 1, 4⟩, ⟨1, 0, 3⟩]
    let graph := TemporalGraph.build StdSort.stable {} edges 3 true (Schedule.serial edges true)
    WithinOnOutputs (Prod.fst <$> hops (patSampler graph (Pat.build {} graph linearBias kPatTrunkSizeMin
      (ForSchedule.serial _)) linearBias) 79 1 kSentinelStartTimestamp (-1) {}) (79 * 3) ((79 : Nat) * stepError 2)
        (walkLaw graph linearBias 79 (Walker.ofStart 1)) :=
  walks_onWords StdSort.stable {} (Schedule.serial _ true) (by unfold EndpointsIn; decide) (by decide) (by decide)
    linearBias_exact (by decide) 79 _ (.pat {} kPatTrunkSizeMin (ForSchedule.serial _)) {}

/-- The error of a node2vec hop at a vertex of degree at most `D`. -/
noncomputable def node2vecStepError (self : Node2VecBias ℝ) (D : Nat) : ℝ≥0∞ :=
  (stepError D + ENNReal.ofReal (1 / (2 ^ 53 : Nat))) / ENNReal.ofReal self.minRatio

section node2vec

variable {graph : TemporalGraph} (hg : graph.WellFormed) (neighbors : NeighborSets) {exp : ℝ → ℝ}
  (hexp : ∀ x, 0 ≤ exp x) (hzero : exp 0 = 1) {self : Node2VecBias ℝ} (hp : 0 < self.p) (hq : 0 < self.q)

include hg hexp hzero hp hq

theorem hopsOf_node2vec_onWords {propose : StepFn ℝ} {D : Nat} (hpropose : ∀ w : Walker, w.InGraph graph →
      (propose w.u w.tPrev w.prevU).HasLaw (stepLaw graph (self.toBias exp) w) ∧
      ResolvesRaw (stepError D) (propose w.u w.tPrev w.prevU))
    (hcount : ∀ u tPrev prevU, (propose u tPrev prevU).AtMost 3) (n : Nat) {w : Walker} (hw : w.InGraph graph) :
    WithinOnOutputs (hopsOf (node2vecStep propose self neighbors) n w.u w.tPrev w.prevU) (n * 4096)
      (n * node2vecStepError self D) (node2vecWalkLaw graph neighbors exp self n w) := by
  have hmove : ∀ (w : Walker) a, w.InGraph graph → (node2vecLaw graph neighbors exp self w).map slotOf (some a) ≠ 0 →
      (w.move a).InGraph graph := fun w a hw ha => node2vecLaw_known hg hw ha
  rw [node2vecWalkLaw]
  refine hopsOf_onWords (k := 4096) ?_ hmove ?_ n hw
  · intro w hw
    obtain ⟨hlaw, hresolves⟩ := hpropose w hw
    have hκ : 0 < self.minRatio := Node2VecBias.minRatio_pos hp hq
    have hstep := retriesOf_resolves hresolves hκ self.minRatio_le_one (fun v =>
      ⟨Node2VecBias.minRatio_le_acceptRatio self w.prevU neighbors v, Node2VecBias.acceptRatio_le_one w.prevU v neighbors⟩)
      w.prevU kNode2VecMaxRetries .dead
    exact (hstep.map slotOf).within ((node2vecStep_hasLaw hg hexp hzero hp hq hw hlaw).map slotOf)
  · intro u tPrev prevU
    exact (retriesOf_atMost (hcount u tPrev prevU) _ prevU kNode2VecMaxRetries .dead).mono (by decide)

end node2vec

/-- The errors of the outputs, of the hops and of the cap on the retries. -/
noncomputable def node2vecWalkError (self : Node2VecBias ℝ) (D n : Nat) : ℝ≥0∞ :=
  n * node2vecStepError self D + (n - 1 : Nat) * ENNReal.ofReal ((1 - self.minRatio) ^ 1024)

theorem BuiltNode2vec.hops_onWords {graph : TemporalGraph} (hg : graph.WellFormed) {edges : List Edge}
    {isDirected : Bool} (hstores : StoresInput graph edges graph.numVertices isDirected)
    (hin : EndpointsIn edges graph.numVertices) {exp : ℝ → ℝ} (hexp : ∀ x, 0 ≤ exp x) (hzero : exp 0 = 1)
    {self : Node2VecBias ℝ} (hp : 0 < self.p) (hq : 0 < self.q) {sets : NeighborSets} {ρ : OutSchedule graph}
    {sample : Sampler ℝ} (h : BuiltNode2vec graph exp self (sets.build graph isDirected ρ) sample) {D : Nat}
    (hdegree : ∀ v < graph.numVertices, graph.degree v ≤ D) (hsmall : D < 2 ^ 32) (n : Nat) {u : Int}
    (hu : (Walker.ofStart u).InGraph graph) (scratch : SamplerScratch ℝ) :
    WithinOnOutputs (Prod.fst <$> hops sample n u kSentinelStartTimestamp (-1) scratch) (n * 4096)
      (node2vecWalkError self D n) (inputNode2vecWalkLaw edges isDirected exp self n (.ofStart u)) := by
  rw [NeighborSets.build_eq hg] at h
  have hneighbors := NeighborSets.ofGraph_isNeighborhood hstores hin
  have hexact : ∀ ts, (self.toBias exp).ExactOnSlices ts := fun ts => ExponentialBias.toBias_exact hexp hzero _ ts
  have hcap := node2vecWalkLaw_within hg hstores hneighbors hexp hzero hp hq n hu
  obtain ⟨plain, propose, hplain, hpropose, hreturns⟩ := h.returns
  rw [fst_hops hreturns]
  obtain ⟨hcount, hclose⟩ := hopsOf_node2vec_onWords hg (NeighborSets.ofGraph graph isDirected) hexp hzero hp hq
    (fun w hw => ⟨hplain.step_hasLaw hg hexact hpropose hw,
      hplain.step_resolves hg hexact hpropose hdegree hsmall hw⟩) (hplain.step_atMost hpropose) n hu
  exact ⟨hcount, hclose.trans hcap⟩

/-- **Node2vec walks on 64-bit words**: the errors of the outputs, of the cap on the retries and of the hops add up. -/
theorem node2vecWalks_onWords (S : StdSort) (graph₀ : TemporalGraph) {edges : List Edge} {numVertices : Int}
    {isDirected : Bool} (σ : Schedule edges isDirected) (hin : EndpointsIn edges (vertexCount edges numVertices))
    {D : Nat} (hD : ∀ v < vertexCount edges numVertices, (inbound edges isDirected v).length ≤ D) (hsmall : D < 2 ^ 32)
    {exp : ℝ → ℝ} (hexp : ∀ x, 0 ≤ exp x) (hzero : exp 0 = 1) {self : Node2VecBias ℝ} (hp : 0 < self.p)
    (hq : 0 < self.q) {u : Int} (hu : 0 ≤ u ∧ u < vertexCount edges numVertices) (n : Nat) :
    let graph := TemporalGraph.build S graph₀ edges numVertices isDirected σ
    ∀ (sets : NeighborSets) (ρ : OutSchedule graph), ∀ sample,
      BuiltNode2vec graph exp self (sets.build graph isDirected ρ) sample → ∀ scratch : SamplerScratch ℝ,
        WithinOnOutputs (Prod.fst <$> hops sample n u kSentinelStartTimestamp (-1) scratch) (n * 4096)
          (node2vecWalkError self D n) (inputNode2vecWalkLaw edges isDirected exp self n (.ofStart u)) := by
  intro graph sets ρ sample hsample scratch
  obtain ⟨hg, hn, hstores⟩ : graph.WellFormed ∧ graph.numVertices = vertexCount edges numVertices ∧
      StoresInput graph edges graph.numVertices isDirected := build_walkable S graph₀ σ hin
  have hw : (Walker.ofStart u).InGraph graph := Walker.inGraph_of_lt hn hu
  have hdegree : ∀ v < graph.numVertices, graph.degree v ≤ D :=
    fun v hv => (hstores.degree_eq hv).trans_le (hD v (hn ▸ hv))
  exact hsample.hops_onWords hg hstores (hn ▸ hin) hexp hzero hp hq hdegree hsmall n hw scratch

theorem node2vecWalks_onWords_example :
    let edges : List Edge := [⟨0, 1, 5⟩, ⟨2, 1, 4⟩, ⟨1, 0, 3⟩]
    let graph := TemporalGraph.build StdSort.stable {} edges 3 true (Schedule.serial edges true)
    let self : Node2VecBias ℝ := { p := 1 / 2, q := 2, timescaleBound := 1 }
    WithinOnOutputs (Prod.fst <$> hops (patNode2vecSampler Real.exp graph (Pat.build {} graph (self.toBias Real.exp)
      kPatTrunkSizeMin (ForSchedule.serial _)) self (NeighborSets.build {} graph true (OutSchedule.serial graph))) 79 1
      kSentinelStartTimestamp (-1) {}) (79 * 4096)
      (node2vecWalkError self 2 79)
      (inputNode2vecWalkLaw edges true Real.exp self 79 (.ofStart 1)) := by
  intro edges graph self
  exact node2vecWalks_onWords StdSort.stable {} (Schedule.serial edges true) (by unfold EndpointsIn; decide) (by decide)
    (by decide) (fun x => (Real.exp_pos x).le) Real.exp_zero (by norm_num) (by norm_num) (by decide) 79 {}
    (OutSchedule.serial graph) _ (.pat {} kPatTrunkSizeMin (ForSchedule.serial _)) {}

end Tea
