import Tea.Walk.Valid
/-!
# Walks do not interfere

Scratch buffers go from walk to walk without being cleared, and the walks of a run share two output buffers. Neither
is visible in the result (`NoInterference`): a run is the serial run with empty buffers, whichever thread runs which walk
in which order and whatever its scratch holds; and what walk `i` leaves is a function of the tables, its start vertex,
the seed, `i` and the length limit.
-/

namespace Tea

open Layout

variable {R P ρ : Type}

/-- The slots of walk `i`. -/
def WalkJob.Owns (job : WalkJob) (i p : Nat) : Prop := i * job.maxWalkLen ≤ p ∧ p < (i + 1) * job.maxWalkLen

/-- What it means that the walks of `run`, whose iterations are `body`, do not interfere. -/
structure NoInterference (run : (job : WalkJob) → Execution R job.numWalks → WalkRun)
    (body : WalkJob → Nat → SamplerScratch R → WalkState → SamplerScratch R × WalkState) : Prop where
  /-- Every execution leaves the same buffers and statistics as the serial one. -/
  serial : ∀ (job : WalkJob) (ex : Execution R job.numWalks), run job ex = run job (Execution.serial R job.numWalks)
  /-- Other start vertices and the number of walks do not matter to walk `i`. -/
  own : ∀ (job job' : WalkJob) (ex : Execution R job.numWalks) (ex' : Execution R job'.numWalks) (i : Nat),
    i < job.numWalks → i < job'.numWalks → job.start i = job'.start i → job.globalSeed = job'.globalSeed →
    job.maxWalkLen = job'.maxWalkLen →
      (run job ex).len i = (run job' ex').len i ∧
        ∀ k < job.maxWalkLen, (run job ex).slot job i k = (run job' ex').slot job' i k
  /-- An iteration writes its own slots and its own length only. -/
  frame : ∀ (job : WalkJob) (i : Nat) (scratch : SamplerScratch R) (s : WalkState), i < job.numWalks → s.Sized job →
    (∀ p, ¬ job.Owns i p → (body job i scratch s).2.walksOut[p]? = s.walksOut[p]?) ∧
      ∀ j, j ≠ i → (body job i scratch s).2.walkLensOut[j]? = s.walkLensOut[j]?
  /-- Different walks own different slots. -/
  disjoint : ∀ (job : WalkJob) (i j p : Nat), job.Owns i p → job.Owns j p → i = j

theorem WalkJob.Owns.unique {job : WalkJob} {i j p : Nat} (hi : job.Owns i p) (hj : job.Owns j p) : i = j := by
  by_contra hne
  rcases Nat.lt_or_gt_of_ne hne with hlt | hlt
  · have hle : (i + 1) * job.maxWalkLen ≤ j * job.maxWalkLen := Nat.mul_le_mul_right _ hlt
    exact absurd (hi.2.trans_le hle) (Nat.not_lt.mpr hj.1)
  · have hle : (j + 1) * job.maxWalkLen ≤ i * job.maxWalkLen := Nat.mul_le_mul_right _ hlt
    exact absurd (hj.2.trans_le hle) (Nat.not_lt.mpr hi.1)

theorem noInterference_of_returns (gen : SeededGenerator R ρ) {sample : Sampler R} {step : StepFn R}
    (h : sample.Returns step) : NoInterference (runWalksImpl gen sample) (walkBody gen sample) where
  serial job ex := by rw [runWalksImpl_eq gen h, runWalksImpl_eq gen h]
  own job job' ex ex' i hi hi' hstart hseed hlen := by
    have hwalk : walkAt gen job step i = walkAt gen job' step i := by
      unfold walkAt
      rw [hstart, hseed, hlen]
    constructor
    · rw [len_runWalksImpl gen h job ex hi, len_runWalksImpl gen h job' ex' hi', hwalk]
    · intro k hk
      rw [slot_runWalksImpl gen h job ex hi hk, slot_runWalksImpl gen h job' ex' hi' (hlen ▸ hk), hwalk, hlen]
  frame job i scratch s hi hs := by
    have hpadded := length_paddedSlots (walkAt_length_le gen job step i)
    have hend : (i + 1) * job.maxWalkLen ≤ job.numWalks * job.maxWalkLen := Nat.mul_le_mul_right _ hi
    rw [Nat.succ_mul] at hend
    rw [walkBody_snd gen h]
    constructor
    · intro p hp
      rw [WalkJob.Owns, Nat.succ_mul] at hp
      rw [getElem?_splice (by rw [hpadded, hs.1]; exact hend), hpadded, if_neg hp]
    · intro j hj
      exact List.getElem?_set_ne hj.symm
  disjoint job i j p hi hj := hi.unique hj

/-- **Walks do not interfere**, in each of the four runners, for every bias and all tables. -/
theorem walks_do_not_interfere [Arith R] (gen : SeededGenerator R ρ) (graph : TemporalGraph) :
    (∀ (pat : Pat R P) (bias : Bias R P),
      NoInterference (runWalksPat gen graph pat bias) fun job => walkBody gen (patSampler graph pat bias) job) ∧
    (∀ (hpat : Hpat R P) (bias : Bias R P),
      NoInterference (runWalksHpat gen graph hpat bias) fun job => walkBody gen (hpatSampler graph hpat bias) job) ∧
    (∀ (exp : R → R) (pat : Pat R (ExpParams R)) (bias : Node2VecBias R) (neighbors : NeighborSets),
      NoInterference (runWalksPatNode2vec gen exp graph pat bias neighbors) fun job =>
        walkBody gen (patNode2vecSampler exp graph pat bias neighbors) job) ∧
    (∀ (exp : R → R) (hpat : Hpat R (ExpParams R)) (bias : Node2VecBias R) (neighbors : NeighborSets),
      NoInterference (runWalksHpatNode2vec gen exp graph hpat bias neighbors) fun job =>
        walkBody gen (hpatNode2vecSampler exp graph hpat bias neighbors) job) :=
  ⟨fun pat bias => noInterference_of_returns gen (patSampler_returns graph pat bias),
    fun hpat bias => noInterference_of_returns gen (hpatSampler_returns graph hpat bias),
    fun exp pat bias neighbors =>
      noInterference_of_returns gen (patNode2vecSampler_returns exp graph bias neighbors pat),
    fun exp hpat bias neighbors =>
      noInterference_of_returns gen (hpatNode2vecSampler_returns exp graph bias neighbors hpat)⟩

end Tea
