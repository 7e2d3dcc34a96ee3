import Tea.Walk.Starts
import Tea.Walk.Input
import Mathlib.Order.Interval.Finset.Nat
/-!
# How long a walk gets

`max_walk_len` only cuts a walk off: a run with a larger limit extends every walk of the run with the smaller one
(`walks_extend`). The times of a walk descend through the times of the input, so it has at most one slot more than the
input has times; with such a limit a walk ends only where no edge leads further back (`walks_complete`).
-/

namespace Tea

open Arith

variable {R P ρ : Type}

/-! ### Cutting off -/

theorem run_hopsOf_take (g : Generator R ρ) (step : StepFn R) {m n : Nat} (h : m ≤ n) (u tPrev prevU : Int) (s : ρ) :
    ((hopsOf step m u tPrev prevU).run g s).1 = ((hopsOf step n u tPrev prevU).run g s).1.take m := by
  induction m generalizing n u tPrev prevU s with
  | zero => rfl
  | succ m ih =>
      obtain ⟨n, rfl⟩ := Nat.exists_eq_add_of_le' (Nat.one_le_of_lt h)
      have hle : m ≤ n := Nat.le_of_succ_le_succ h
      rw [hopsOf, hopsOf, Draw.run_bind, Draw.run_bind]
      split_ifs
      · rfl
      · rw [Draw.run_bind, Draw.run_bind, Draw.run_pure, Draw.run_pure, List.take_succ_cons, ih hle]

/-- The jobs differ in the limit, and in the buffers. -/
structure WalkJob.SameStarts (job job' : WalkJob) : Prop where
  startVertices : job'.startVertices = job.startVertices
  globalSeed : job'.globalSeed = job.globalSeed

theorem WalkJob.SameStarts.numWalks {job job' : WalkJob} (h : job.SameStarts job') : job'.numWalks = job.numWalks := by
  rw [← job'.starts_length, h.startVertices, job.starts_length]

theorem walkAt_take (gen : SeededGenerator R ρ) (step : StepFn R) {job job' : WalkJob} (h : job.SameStarts job')
    (hle : job.maxWalkLen ≤ job'.maxWalkLen) (i : Nat) :
    walkAt gen job step i = (walkAt gen job' step i).take job.maxWalkLen := by
  have hpos := job.maxWalkLen_pos
  obtain ⟨m, hm⟩ := Nat.exists_eq_add_of_le' hpos
  unfold walkAt walkOf WalkJob.start
  rw [h.startVertices, h.globalSeed, hm, List.take_succ_cons, Nat.add_sub_cancel,
    run_hopsOf_take gen.toGenerator step (show m ≤ job'.maxWalkLen - 1 by omega)]

/-- The walks of `run` are those of `run'` cut off at the limit of `job`. -/
structure Extends (job job' : WalkJob) (run run' : WalkRun) : Prop where
  len : ∀ i < job.numWalks, run.len i = min job.maxWalkLen (run'.len i)
  slot : ∀ i < job.numWalks, ∀ k < run.len i, run.slot job i k = run'.slot job' i k

theorem runWalksImpl_extends (gen : SeededGenerator R ρ) {sample : Sampler R} {step : StepFn R} (h : sample.Returns step)
    {job job' : WalkJob} (hsame : job.SameStarts job') (hle : job.maxWalkLen ≤ job'.maxWalkLen)
    (ex : Execution R job.numWalks) (ex' : Execution R job'.numWalks) :
    Extends job job' (runWalksImpl gen sample job ex) (runWalksImpl gen sample job' ex') := by
  have hlen : ∀ i < job.numWalks, (runWalksImpl gen sample job ex).len i =
      min job.maxWalkLen ((runWalksImpl gen sample job' ex').len i) := by
    intro i hi
    rw [len_runWalksImpl gen h job ex hi, len_runWalksImpl gen h job' ex' (hsame.numWalks ▸ hi),
      walkAt_take gen step hsame hle, List.length_take]
  refine ⟨hlen, fun i hi k hk => ?_⟩
  have hi' : i < job'.numWalks := hsame.numWalks ▸ hi
  have hk' : k < min job.maxWalkLen ((walkAt gen job' step i).length) := by
    rwa [hlen i hi, len_runWalksImpl gen h job' ex' hi'] at hk
  rw [len_runWalksImpl gen h job ex hi] at hk
  rw [slot_live gen h job ex hi hk, slot_live gen h job' ex' hi' (by omega), walkAt_take gen step hsame hle,
    List.getD_eq_getElem?_getD, List.getElem?_take, if_pos (by omega), List.getD_eq_getElem?_getD]

/-- **A larger limit extends the walks**: with the same start list and seed, on the same graph and tables, whatever they
hold and however the threads run. -/
theorem walks_extend [Arith R] (gen : SeededGenerator R ρ) (graph : TemporalGraph) {job job' : WalkJob}
    (hsame : job.SameStarts job') (hle : job.maxWalkLen ≤ job'.maxWalkLen) (ex : Execution R job.numWalks)
    (ex' : Execution R job'.numWalks) :
    (∀ (pat : Pat R P) (bias : Bias R P),
      Extends job job' (runWalksPat gen graph pat bias job ex) (runWalksPat gen graph pat bias job' ex')) ∧
    (∀ (hpat : Hpat R P) (bias : Bias R P),
      Extends job job' (runWalksHpat gen graph hpat bias job ex) (runWalksHpat gen graph hpat bias job' ex')) ∧
    (∀ (exp : R → R) (pat : Pat R (ExpParams R)) (bias : Node2VecBias R) (neighbors : NeighborSets),
      Extends job job' (runWalksPatNode2vec gen exp graph pat bias neighbors job ex)
        (runWalksPatNode2vec gen exp graph pat bias neighbors job' ex')) ∧
    (∀ (exp : R → R) (hpat : Hpat R (ExpParams R)) (bias : Node2VecBias R) (neighbors : NeighborSets),
      Extends job job' (runWalksHpatNode2vec gen exp graph hpat bias neighbors job ex)
        (runWalksHpatNode2vec gen exp graph hpat bias neighbors job' ex')) :=
  ⟨fun pat bias => runWalksImpl_extends gen (patSampler_returns graph pat bias) hsame hle ex ex',
    fun hpat bias => runWalksImpl_extends gen (hpatSampler_returns graph hpat bias) hsame hle ex ex',
    fun exp pat bias neighbors =>
      runWalksImpl_extends gen (patNode2vecSampler_returns exp graph bias neighbors pat) hsame hle ex ex',
    fun exp hpat bias neighbors =>
      runWalksImpl_extends gen (hpatNode2vecSampler_returns exp graph bias neighbors hpat) hsame hle ex ex'⟩

theorem walks_extend_example :
    let graph := TemporalGraph.build StdSort.stable {} [⟨0, 1, 5⟩, ⟨2, 1, 4⟩, ⟨1, 0, 3⟩] 3 true (Schedule.serial _ true)
    let job := WalkJob.ofStarts [1, 0, 2] 2 7 (by decide)
    let job' := WalkJob.ofStarts [1, 0, 2] 80 7 (by decide)
    let pat : Pat ℚ Unit := Pat.build {} graph uniformBias kPatTrunkSizeMin (ForSchedule.serial _)
    Extends job job' (runWalksPat (Pcg64.generator ℚ) graph pat uniformBias job (Execution.serial ℚ 3))
      (runWalksPat (Pcg64.generator ℚ) graph pat uniformBias job' (Execution.serial ℚ 3)) := by
  intro graph job job' pat
  have hsame : job.SameStarts job' := ⟨rfl, rfl⟩
  exact (walks_extend (Pcg64.generator ℚ) graph hsame (by decide) (Execution.serial ℚ 3) (Execution.serial ℚ 3)).1 pat
    uniformBias

/-! ### Walks that end by themselves -/

section times

variable {graph : TemporalGraph} {job : WalkJob} {run : WalkRun} (h : ValidWalks graph job run) {i : Nat}
  (hi : i < job.numWalks)

include h hi

theorem ValidWalks.time_lt {k l : Nat} (hkl : k < l) (hl : l < run.len i) :
    (run.slot job i l).t < (run.slot job i k).t := by
  induction l, hkl using Nat.le_induction with
  | base => exact (h.hop i hi (k + 1) (Nat.le_add_left 1 k) hl).2.2
  | succ l hkl ih => exact (h.hop i hi (l + 1) (by omega) hl).2.2.trans (ih (by omega))

variable {edges : List Edge} {isDirected : Bool} (hstores : StoresInput graph edges graph.numVertices isDirected)

include hstores

theorem ValidWalks.time_mem {k : Nat} (hk : 1 ≤ k) (hlt : k < run.len i) : (run.slot job i k).t ∈ edgeTimes edges := by
  have hhop := h.hop i hi k hk hlt
  exact ((hop_iff_follows hstores hhop.1).mp hhop).time_mem

omit hstores in
theorem ValidWalks.card_times :
    ((Finset.Ico 1 (run.len i)).image fun k => (run.slot job i k).t).card = run.len i - 1 := by
  rw [Finset.card_image_of_injOn, Nat.card_Ico]
  intro k hk l hl heq
  have hk' := Finset.mem_Ico.mp hk
  have hl' := Finset.mem_Ico.mp hl
  rcases Nat.lt_trichotomy k l with hlt | rfl | hlt
  · exact absurd heq (h.time_lt hi hlt hl'.2).ne'
  · rfl
  · exact absurd heq (h.time_lt hi hlt hk'.2).ne

theorem ValidWalks.times_subset :
    ((Finset.Ico 1 (run.len i)).image fun k => (run.slot job i k).t) ⊆ edgeTimes edges := by
  intro t ht
  obtain ⟨k, hk, rfl⟩ := Finset.mem_image.mp ht
  obtain ⟨hk1, hlt⟩ := Finset.mem_Ico.mp hk
  exact h.time_mem hi hstores hk1 hlt

theorem ValidWalks.len_le : run.len i ≤ (edgeTimes edges).card + 1 := by
  have hcard := Finset.card_le_card (h.times_subset hi hstores)
  rw [h.card_times hi] at hcard
  omega

theorem ValidWalks.last_le (hall : run.len i = (edgeTimes edges).card + 1) {t : Int} (ht : t ∈ edgeTimes edges) :
    (run.slot job i (run.len i - 1)).t ≤ t := by
  have heq := Finset.eq_of_subset_of_card_le (h.times_subset hi hstores)
    (by rw [h.card_times hi, hall, Nat.add_sub_cancel])
  rw [← heq] at ht
  obtain ⟨k, hk, rfl⟩ := Finset.mem_image.mp ht
  obtain ⟨-, hlt⟩ := Finset.mem_Ico.mp hk
  rcases Nat.lt_or_ge k (run.len i - 1) with hbefore | hlast
  · exact (h.time_lt hi hbefore (by omega)).le
  · rw [show k = run.len i - 1 by omega]

end times

/-- **Walks that the limit does not cut off are maximal.** A walk has at most one slot more than the input has times. If
the limit leaves room for that many, then no edge of the input leads on from the last slot of a walk. -/
theorem walks_complete [Arith R] [PosArith R] (S : StdSort) (self : TemporalGraph) {edges : List Edge} {numVertices : Int}
    {isDirected : Bool} (σ : Schedule edges isDirected) (hin : EndpointsIn edges (vertexCount edges numVertices))
    {U : R → Prop} (hU : NonnegDraws U) (gen : SeededGenerator R ρ) (hgen : gen.toGenerator.Admissible U) (job : WalkJob)
    (hstarts : job.StartsIn (vertexCount edges numVertices)) (ex : Execution R job.numWalks) :
    let graph := TemporalGraph.build S self edges numVertices isDirected σ
    ∀ run, PositiveRun graph gen job ex run → ∀ i < job.numWalks,
      run.len i ≤ (edgeTimes edges).card + 1 ∧
      ((edgeTimes edges).card < job.maxWalkLen →
        ∀ b, ¬ Follows edges isDirected (run.slot job i (run.len i - 1)) b) := by
  intro graph run hrun i hi
  obtain ⟨hg, hn, hstores⟩ : graph.WellFormed ∧ graph.numVertices = vertexCount edges numVertices ∧
      StoresInput graph edges graph.numVertices isDirected := build_walkable S self σ hin
  have hstarts' : job.StartsIn graph.numVertices := hn ▸ hstarts
  clear_value graph
  obtain ⟨sample, step, hs, rfl⟩ := hrun.sampler hg hU
  have hv := runWalksImpl_valid hgen hs.returns hs.valid job hstarts' ex
  have hlive := hs.walks hg hgen job hstarts' ex
  refine ⟨hv.len_le hi hstores, fun hroom => ?_⟩
  rcases Nat.lt_or_ge ((runWalksImpl gen sample job ex).len i) job.maxWalkLen with hshort | hfull
  · have hlast := hlive.inGraph i hi _ (Nat.sub_lt (hv.len_mem i hi).1 Nat.one_pos)
    exact (noCandidate_iff_follows hg hstores hlast).mp (hlive.early i hi hshort)
  · have hmax := (hv.len_mem i hi).2
    have hle := hv.len_le hi hstores
    intro b hb
    exact absurd hb.1 (not_lt.mpr (hv.last_le hi hstores (by omega) hb.time_mem))

theorem walks_complete_example :
    let edges : List Edge := [⟨0, 1, 5⟩, ⟨2, 1, 4⟩, ⟨1, 0, 3⟩]
    let graph := TemporalGraph.build StdSort.stable {} edges 3 true (Schedule.serial edges true)
    let job := WalkJob.ofStarts [1, 0, 2] 80 7 (by decide)
    let run := runWalksPat (Pcg64.generator ℚ) graph
      (Pat.build {} graph uniformBias kPatTrunkSizeMin (ForSchedule.serial _)) uniformBias job (Execution.serial ℚ 3)
    ∀ b, ¬ Follows edges true (run.slot job 0 (run.len 0 - 1)) b := by
  intro edges graph job run
  have hrun : PositiveRun graph (Pcg64.generator ℚ) job (Execution.serial ℚ 3) run :=
    .pat (fun u _ => uniformBias_positive.positiveAt graph u) {} kPatTrunkSizeMin (ForSchedule.serial _)
  exact (walks_complete StdSort.stable {} (Schedule.serial edges true) (by unfold EndpointsIn; decide)
    (nonnegDraws_unit ℚ) (Pcg64.generator ℚ) Pcg64.admissible job (by unfold WalkJob.StartsIn; decide)
    (Execution.serial ℚ 3) run hrun 0 (by decide)).2 (by decide)

end Tea
