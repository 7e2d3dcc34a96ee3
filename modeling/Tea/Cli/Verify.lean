import Tea.Lib.Check
import Tea.Walk.Valid
/-!
# The walk verifier

`tea_verify_walks` scans the buffers of a run and exits at the first violation. Its header documents four conditions
(`DocumentedWalk`). `verifyWalk` is not given the start vertex of the walk: it compares the time of slot 0 with the sentinel,
and accepts any vertex there. What it decides is `TestedWalk` (`verifyWalks_decides`), for buffers of any contents.

The runs of the engine pass (`ValidWalks.verified`).
-/

namespace Tea

open Check

/-- `VerifyStats`. -/
structure VerifyStats where
  walksChecked : Nat := 0
  edgesChecked : Nat := 0
  deadAtStart : Nat := 0
  maxWalkLenSeen : Int := 0
deriving Repr, DecidableEq

/-- What `die_on_step` reports before the program exits. -/
structure StepFailure where
  walkIdx : Nat
  step : Nat
  reason : String
deriving Repr, DecidableEq

/-- The output buffers of a run, with any contents. -/
structure WalkBuffers (numWalks maxWalkLen : Nat) where
  walksOut : List NodeStep
  walkLensOut : List Int
  maxWalkLen_pos : 0 < maxWalkLen
  walksOut_length : walksOut.length = numWalks * maxWalkLen
  walkLensOut_length : walkLensOut.length = numWalks

namespace WalkBuffers

variable {numWalks maxWalkLen : Nat}

/-- The slots of walk `i`. -/
def slots (buffers : WalkBuffers numWalks maxWalkLen) (i k : Nat) : NodeStep :=
  buffers.walksOut.getD (i * maxWalkLen + k) ⟨0, 0⟩

/-- The stored length of walk `i`. -/
def len (buffers : WalkBuffers numWalks maxWalkLen) (i : Nat) : Int := buffers.walkLensOut.getD i 0

end WalkBuffers

/-! ### The program -/

/-- `edge_in_inbound`. -/
def edgeInInbound (graph : TemporalGraph) (u targetV ts : Int) : Bool :=
  let tgt := graph.targetsOf u.toNat
  let t := graph.timestampsOf u.toNat
  (List.range tgt.length).any fun i => tgt.getD i 0 == targetV && t.getD i 0 == ts

/-- The variables of the step loop of `verify_walk`. -/
structure VerifyState where
  prevTs : Int
  prevV : Int
  stats : VerifyStats

section verify

variable (graph : TemporalGraph) (slots : Nat → NodeStep)

/-- One round of the step loop: slot `k` against the slot before it. -/
def verifyStep (walkIdx : Nat) (s : VerifyState) (k : Nat) : Except StepFailure VerifyState :=
  let vK := (slots k).v
  let tK := (slots k).t
  if vK = kWalkDeadSentinel then .error ⟨walkIdx, k, "live slot but vertex is kWalkDeadSentinel"⟩
  else if ¬ tK < s.prevTs then .error ⟨walkIdx, k, "timestamp not strictly less than prev"⟩
  else if ¬ edgeInInbound graph s.prevV vK tK then .error ⟨walkIdx, k, "edge (prev_v ← v_k @ t_k) not in graph"⟩
  else .ok ⟨tK, vK, { s.stats with edgesChecked := s.stats.edgesChecked + 1 }⟩

/-- One round of the loop over the tail. -/
def verifyTail (walkIdx : Nat) (_ : Unit) (k : Nat) : Except StepFailure Unit :=
  if (slots k).v ≠ kWalkDeadSentinel then .error ⟨walkIdx, k, "tail slot is not sentinel-padded"⟩
  else .ok ()

/-- `verify_walk`. -/
def verifyWalk (walkLen : Int) (maxWalkLen walkIdx : Nat) (stats : VerifyStats) : Except StepFailure VerifyStats :=
  if (slots 0).t ≠ kSentinelStartTimestamp then .error ⟨walkIdx, 0, "slot 0 timestamp is not the sentinel"⟩
  else if walkLen < 1 ∨ maxWalkLen < walkLen then .error ⟨walkIdx, 0, "walk_len out of range"⟩
  else do
    let stats := if walkLen = 1 then { stats with deadAtStart := stats.deadAtStart + 1 } else stats
    let s ← (List.range' 1 (walkLen.toNat - 1)).foldlM (verifyStep graph slots walkIdx)
      ⟨kSentinelStartTimestamp, (slots 0).v, stats⟩
    (List.range' walkLen.toNat (maxWalkLen - walkLen.toNat)).foldlM (verifyTail slots walkIdx) ()
    .ok { s.stats with
      walksChecked := s.stats.walksChecked + 1
      maxWalkLenSeen := if s.stats.maxWalkLenSeen < walkLen then walkLen else s.stats.maxWalkLenSeen }

end verify

/-- The verification loop. -/
def verifyWalks (graph : TemporalGraph) {numWalks maxWalkLen : Nat} (buffers : WalkBuffers numWalks maxWalkLen) :
    Except StepFailure VerifyStats :=
  (List.range' 0 numWalks).foldlM
    (fun stats i => verifyWalk graph (buffers.slots i) (buffers.len i) maxWalkLen i stats) {}

/-! ### What it checks -/

/-- The conditions of the file header, for a walk from `start`. -/
structure DocumentedWalk (graph : TemporalGraph) (slots : Nat → NodeStep) (start len : Int) (maxWalkLen : Nat) : Prop where
  start : slots 0 = ⟨start, kSentinelStartTimestamp⟩
  len_mem : 1 ≤ len ∧ len ≤ maxWalkLen
  decreasing : ∀ k : Nat, 1 ≤ k → (k : Int) < len → (slots k).t < (slots (k - 1)).t
  stored : ∀ k : Nat, 1 ≤ k → (k : Int) < len → ((slots k).t, (slots k).v) ∈ graph.entriesOf (slots (k - 1)).v.toNat
  padded : ∀ k : Nat, len ≤ (k : Int) → k < maxWalkLen → (slots k).v = kWalkDeadSentinel

/-- The conditions that are tested. -/
structure TestedWalk (graph : TemporalGraph) (slots : Nat → NodeStep) (len : Int) (maxWalkLen : Nat) : Prop where
  sentinel : (slots 0).t = kSentinelStartTimestamp
  len_mem : 1 ≤ len ∧ len ≤ maxWalkLen
  decreasing : ∀ k : Nat, 1 ≤ k → (k : Int) < len → (slots k).t < (slots (k - 1)).t
  stored : ∀ k : Nat, 1 ≤ k → (k : Int) < len → ((slots k).t, (slots k).v) ∈ graph.entriesOf (slots (k - 1)).v.toNat
  padded : ∀ k : Nat, len ≤ (k : Int) → k < maxWalkLen → (slots k).v = kWalkDeadSentinel

/-- The live slots of a walk hold vertices of the graph. -/
def LiveIn (graph : TemporalGraph) (slots : Nat → NodeStep) (len : Int) (maxWalkLen : Nat) : Prop :=
  ∀ k < maxWalkLen, (k : Int) < len → InGraph graph (slots k)

/-- The statistics after one more walk. -/
def VerifyStats.count (stats : VerifyStats) (len : Int) : VerifyStats where
  walksChecked := stats.walksChecked + 1
  edgesChecked := stats.edgesChecked + (len.toNat - 1)
  deadAtStart := if len = 1 then stats.deadAtStart + 1 else stats.deadAtStart
  maxWalkLenSeen := if stats.maxWalkLenSeen < len then len else stats.maxWalkLenSeen

theorem documentedWalk_iff {graph : TemporalGraph} {slots : Nat → NodeStep} {start len : Int} {maxWalkLen : Nat} :
    DocumentedWalk graph slots start len maxWalkLen ↔
      TestedWalk graph slots len maxWalkLen ∧ (slots 0).v = start := by
  constructor
  · rintro ⟨hstart, hlen, hdec, hstored, hpad⟩
    exact ⟨⟨congrArg NodeStep.t hstart, hlen, hdec, hstored, hpad⟩, congrArg NodeStep.v hstart⟩
  · rintro ⟨⟨hsentinel, hlen, hdec, hstored, hpad⟩, hv⟩
    refine ⟨?_, hlen, hdec, hstored, hpad⟩
    rw [← hv, ← hsentinel]

/-! ### Each part of the program -/

section parts

variable {graph : TemporalGraph} (hg : graph.WellFormed) {slots : Nat → NodeStep} {len : Int} {maxWalkLen : Nat}

include hg in
theorem edgeInInbound_iff {u : Int} (h0 : 0 ≤ u) (hu : u < graph.numVertices) (v t : Int) :
    edgeInInbound graph u v t ↔ (t, v) ∈ graph.entriesOf u.toNat := by
  have hu' : u.toNat < graph.numVertices := by omega
  have htg := hg.length_targets _ hu'
  have hts := hg.length_timestamps _ hu'
  unfold edgeInInbound
  rw [List.any_eq_true, TemporalGraph.entriesOf, List.mem_iff_getElem]
  constructor
  · rintro ⟨i, hi, heq⟩
    rw [List.mem_range] at hi
    rw [Bool.and_eq_true, beq_iff_eq, beq_iff_eq] at heq
    have hi' : i < (graph.timestampsOf u.toNat).length := by omega
    rw [List.getD_eq_getElem _ _ hi, List.getD_eq_getElem _ _ hi'] at heq
    refine ⟨i, by rw [List.length_zip]; omega, ?_⟩
    rw [List.getElem_zip, heq.1, heq.2]
  · rintro ⟨i, hi, heq⟩
    rw [List.length_zip] at hi
    have hi' : i < (graph.timestampsOf u.toNat).length := by omega
    have hi'' : i < (graph.targetsOf u.toNat).length := by omega
    rw [List.getElem_zip, Prod.mk.injEq] at heq
    refine ⟨i, List.mem_range.mpr hi'', ?_⟩
    rw [List.getD_eq_getElem _ _ hi'', List.getD_eq_getElem _ _ hi', heq.1, heq.2, Bool.and_eq_true, beq_iff_eq,
      beq_iff_eq]
    exact ⟨rfl, rfl⟩

/-- Before round `k` the loop variables hold slot `k - 1`, and `k - 1` steps are counted. -/
structure VerifyState.At (slots : Nat → NodeStep) (stats : VerifyStats) (k : Nat) (s : VerifyState) : Prop where
  pos : 1 ≤ k
  prevTs : s.prevTs = (slots (k - 1)).t
  prevV : s.prevV = (slots (k - 1)).v
  stats : s.stats = { stats with edgesChecked := stats.edgesChecked + (k - 1) }

/-- Slot `k` is live, earlier than the slot before it, and a stored entry of that slot's vertex. -/
def StepGood (graph : TemporalGraph) (slots : Nat → NodeStep) (k : Nat) : Prop :=
  ¬ (slots k).v = kWalkDeadSentinel ∧ (slots k).t < (slots (k - 1)).t ∧
    edgeInInbound graph (slots (k - 1)).v (slots k).v (slots k).t

theorem verifyStep_decides (walkIdx : Nat) (stats : VerifyStats) {k : Nat} {s : VerifyState}
    (hs : s.At slots stats k) :
    Decides (verifyStep graph slots walkIdx s k) (StepGood graph slots k) (VerifyState.At slots stats (k + 1)) := by
  have hnext : VerifyState.At slots stats (k + 1)
      ⟨(slots k).t, (slots k).v, { s.stats with edgesChecked := s.stats.edgesChecked + 1 }⟩ := by
    have hk := hs.pos
    refine ⟨by omega, rfl, rfl, ?_⟩
    rw [hs.stats]
    simp only [VerifyStats.mk.injEq, true_and, and_true]
    omega
  have h := Decides.guard (e := ⟨walkIdx, k, "live slot but vertex is kWalkDeadSentinel"⟩)
    fun _ : ¬ (slots k).v = kWalkDeadSentinel =>
      Decides.guard (e := ⟨walkIdx, k, "timestamp not strictly less than prev"⟩)
        fun _ : ¬ ¬ (slots k).t < s.prevTs =>
          Decides.guard (e := (⟨walkIdx, k, "edge (prev_v ← v_k @ t_k) not in graph"⟩ : StepFailure))
            fun _ : ¬ ¬ edgeInInbound graph s.prevV (slots k).v (slots k).t = true => Decides.ok hnext
  apply h.iff
  rw [hs.prevTs, hs.prevV, not_not, not_not, and_true]
  rfl

variable (slots) in
theorem verifyTail_decides (walkIdx k : Nat) (u : Unit) :
    Decides (verifyTail slots walkIdx u k) ((slots k).v = kWalkDeadSentinel) fun _ => True := by
  have h := Decides.guard (e := (⟨walkIdx, k, "tail slot is not sentinel-padded"⟩ : StepFailure))
    (c := (slots k).v ≠ kWalkDeadSentinel) fun _ => Decides.ok (Q := fun _ : Unit => True) (a := ()) trivial
  exact h.iff (by rw [ne_eq, not_not, and_true])

theorem verifySteps_decides (hsentinel : (slots 0).t = kSentinelStartTimestamp) (walkIdx n : Nat)
    (stats : VerifyStats) :
    Decides ((List.range' 1 n).foldlM (verifyStep graph slots walkIdx) ⟨kSentinelStartTimestamp, (slots 0).v, stats⟩)
      (∀ k, 1 ≤ k → k < 1 + n → StepGood graph slots k) (VerifyState.At slots stats (1 + n)) :=
  Decides.loop (I := VerifyState.At slots stats) n 1 (fun _ _ _ _ hs => verifyStep_decides walkIdx stats hs)
    ⟨le_rfl, hsentinel.symm, rfl, rfl⟩

theorem verifyTails_decides (walkIdx n a : Nat) :
    Decides ((List.range' a n).foldlM (verifyTail slots walkIdx) ())
      (∀ k, a ≤ k → k < a + n → (slots k).v = kWalkDeadSentinel) fun _ => True :=
  Decides.loop (I := fun _ _ => True) n a (fun k _ _ u _ => verifyTail_decides slots walkIdx k u) trivial

theorem testedWalk_iff_rounds (hg : graph.WellFormed) (hlive : LiveIn graph slots len maxWalkLen) :
    TestedWalk graph slots len maxWalkLen ↔ (¬ (slots 0).t ≠ kSentinelStartTimestamp) ∧
      (¬ (len < 1 ∨ maxWalkLen < len)) ∧
      (∀ k, 1 ≤ k → k < 1 + (len.toNat - 1) → StepGood graph slots k) ∧
      (∀ k, len.toNat ≤ k → k < len.toNat + (maxWalkLen - len.toNat) → (slots k).v = kWalkDeadSentinel) := by
  have hgood : ∀ k : Nat, 1 ≤ k → (k : Int) < len → len ≤ maxWalkLen → (StepGood graph slots k ↔
      (slots k).t < (slots (k - 1)).t ∧ ((slots k).t, (slots k).v) ∈ graph.entriesOf (slots (k - 1)).v.toNat) := by
    intro k hk hlt hle
    obtain ⟨h0, h1⟩ := hlive (k - 1) (by omega) (by omega)
    obtain ⟨h0', -⟩ := hlive k (by omega) hlt
    have hnotDead : ¬ (slots k).v = kWalkDeadSentinel := by
      unfold kWalkDeadSentinel
      omega
    rw [StepGood, edgeInInbound_iff hg h0 h1]
    exact and_iff_right hnotDead
  constructor
  · rintro ⟨hsentinel, ⟨hlo, hhi⟩, hdec, hstored, hpad⟩
    refine ⟨not_not.mpr hsentinel, by omega, fun k hk hlt => ?_, fun k hk hlt => hpad k (by omega) (by omega)⟩
    have hlt' : (k : Int) < len := by omega
    exact (hgood k hk hlt' hhi).mpr ⟨hdec k hk hlt', hstored k hk hlt'⟩
  · rintro ⟨hsentinel, hrange, hrounds, htail⟩
    have hround : ∀ k : Nat, 1 ≤ k → (k : Int) < len → _ := fun k hk hlt =>
      (hgood k hk hlt (by omega)).mp (hrounds k hk (by omega))
    refine ⟨not_not.mp hsentinel, by omega, fun k hk hlt => (hround k hk hlt).1, fun k hk hlt => (hround k hk hlt).2,
      fun k hk hlt => htail k (by omega) (by omega)⟩

theorem verifyWalk_decides (hg : graph.WellFormed) (hlive : LiveIn graph slots len maxWalkLen) (walkIdx : Nat)
    (stats : VerifyStats) :
    Decides (verifyWalk graph slots len maxWalkLen walkIdx stats) (TestedWalk graph slots len maxWalkLen)
      (· = stats.count len) := by
  unfold verifyWalk
  refine Decides.iff (Decides.guard fun hsentinel => Decides.guard fun hlen => ?_)
    (testedWalk_iff_rounds hg hlive).symm
  refine (verifySteps_decides (not_not.mp hsentinel) walkIdx _ _).bind fun s hs =>
    Decides.iff ((verifyTails_decides walkIdx _ _).bind fun _ _ => Decides.ok ?_) (by rw [and_true])
  have hone : 1 + (len.toNat - 1) - 1 = len.toNat - 1 := by omega
  rw [hs.stats, VerifyStats.count, hone]
  split_ifs <;> rfl

end parts

/-! ### The verification loop -/

section buffers

variable {graph : TemporalGraph} {numWalks maxWalkLen : Nat} (buffers : WalkBuffers numWalks maxWalkLen)

/-- All live slots hold vertices of the graph. -/
def WalkBuffers.LiveIn (graph : TemporalGraph) : Prop :=
  ∀ i < numWalks, Tea.LiveIn graph (buffers.slots i) (buffers.len i) maxWalkLen

/-- The statistics of the first `i` walks. -/
def WalkBuffers.stats (i : Nat) : VerifyStats :=
  (List.range i).foldl (fun stats j => stats.count (buffers.len j)) {}

theorem WalkBuffers.stats_succ (i : Nat) : buffers.stats (i + 1) = (buffers.stats i).count (buffers.len i) := by
  rw [stats, List.range_succ, List.foldl_append]
  rfl

/-- **What the verification loop decides.** It completes exactly if every walk meets the tested conditions, and then has
counted every walk. -/
theorem verifyWalks_decides (hg : graph.WellFormed) (hlive : buffers.LiveIn graph) :
    Decides (verifyWalks graph buffers)
      (∀ i < numWalks, TestedWalk graph (buffers.slots i) (buffers.len i) maxWalkLen) (· = buffers.stats numWalks) := by
  have hstep : ∀ i, 0 ≤ i → i < 0 + numWalks → ∀ stats, stats = buffers.stats i →
      Decides (verifyWalk graph (buffers.slots i) (buffers.len i) maxWalkLen i stats)
        (TestedWalk graph (buffers.slots i) (buffers.len i) maxWalkLen) (· = buffers.stats (i + 1)) := by
    rintro i - hi stats rfl
    rw [buffers.stats_succ]
    exact verifyWalk_decides hg (hlive i (by omega)) i _
  have h := Decides.loop (I := fun i stats => stats = buffers.stats i) numWalks 0 hstep rfl
  rw [Nat.zero_add] at h
  exact h.iff ⟨fun hall i hi => hall i (Nat.zero_le i) hi, fun hall i _ hi => hall i hi⟩

theorem WalkBuffers.walksChecked_stats (n : Nat) : (buffers.stats n).walksChecked = n := by
  induction n with
  | zero => rfl
  | succ n ih =>
      rw [stats_succ]
      exact congrArg (· + 1) ih

theorem WalkBuffers.edgesChecked_stats (n : Nat) :
    (buffers.stats n).edgesChecked = ((List.range n).map fun i => (buffers.len i).toNat - 1).sum := by
  induction n with
  | zero => rfl
  | succ n ih =>
      rw [stats_succ, List.range_succ, List.map_append, List.sum_append, ← ih]
      rfl

theorem WalkBuffers.deadAtStart_stats (n : Nat) :
    (buffers.stats n).deadAtStart = (List.range n).countP fun i => buffers.len i = 1 := by
  induction n with
  | zero => rfl
  | succ n ih =>
      rw [stats_succ, List.range_succ, List.countP_append, ← ih, List.countP_singleton]
      unfold VerifyStats.count
      by_cases h : buffers.len n = 1 <;> simp [h]

end buffers

/-! ### Documented and tested conditions -/

/-- **The verifier against its documentation.** It completes exactly on the buffers that meet the documented conditions,
unless the buffers meet all of them but that a walk starts in its start vertex. -/
theorem verifier_documented_iff (S : StdSort) (self : TemporalGraph) {edges : List Edge} {numVertices : Int}
    {isDirected : Bool} (σ : Schedule edges isDirected) (hin : EndpointsIn edges (vertexCount edges numVertices))
    (starts : List Int) {maxWalkLen : Nat} (buffers : WalkBuffers starts.length maxWalkLen)
    (hlive : buffers.LiveIn (TemporalGraph.build S self edges numVertices isDirected σ)) :
    let graph := TemporalGraph.build S self edges numVertices isDirected σ
    ((∃ stats, verifyWalks graph buffers = .ok stats) ↔
      ∀ i < starts.length, DocumentedWalk graph (buffers.slots i) (starts.getD i 0) (buffers.len i) maxWalkLen) ↔
    ((∀ i < starts.length, TestedWalk graph (buffers.slots i) (buffers.len i) maxWalkLen) →
      ∀ i < starts.length, (buffers.slots i 0).v = starts.getD i 0) := by
  intro graph
  have hg : graph.WellFormed := TemporalGraph.build_wellFormed S self σ hin
  rw [(verifyWalks_decides buffers hg hlive).completes_iff]
  simp only [documentedWalk_iff]
  constructor
  · intro h htested i hi
    exact (h.mp htested i hi).2
  · intro h
    exact ⟨fun htested i hi => ⟨htested i hi, h htested i hi⟩, fun hdoc i hi => (hdoc i hi).1⟩

/-- The buffers of one walk: from `v` over the edge from 0 at time 5. -/
def oneHop (v : Int) : WalkBuffers 1 3 :=
  ⟨[⟨v, kSentinelStartTimestamp⟩, ⟨0, 5⟩, ⟨kWalkDeadSentinel, 0⟩], [2], by decide, rfl, rfl⟩

theorem verifier_documented_iff_one :
    let graph := TemporalGraph.build StdSort.stable {} [⟨0, 1, 5⟩, ⟨0, 2, 5⟩] 3 true (Schedule.serial _ true)
    (∃ stats, verifyWalks graph (oneHop 1) = .ok stats) ↔
      ∀ i < 1, DocumentedWalk graph ((oneHop 1).slots i) ([1].getD i 0) ((oneHop 1).len i) 3 :=
  (verifier_documented_iff StdSort.stable {} (Schedule.serial _ true) (by unfold EndpointsIn; decide) [1]
    (oneHop 1) (by unfold WalkBuffers.LiveIn LiveIn InGraph; decide)).mpr fun _ => by decide

/-- A walk from vertex 2 in the place of a walk from vertex 1. -/
theorem verifier_accepts_stray :
    let graph := TemporalGraph.build StdSort.stable {} [⟨0, 1, 5⟩, ⟨0, 2, 5⟩] 3 true (Schedule.serial _ true)
    ¬ ((∃ stats, verifyWalks graph (oneHop 2) = .ok stats) ↔
      ∀ i < 1, DocumentedWalk graph ((oneHop 2).slots i) ([1].getD i 0) ((oneHop 2).len i) 3) := by
  intro graph h
  have hok : verifyWalks graph (oneHop 2) = .ok ⟨1, 1, 0, 2⟩ := by rfl
  exact absurd (h.mp ⟨_, hok⟩ 0 Nat.one_pos).start (by decide)

/-! ### Runs of the engine -/

section verified

variable {graph : TemporalGraph} {job : WalkJob} {run : WalkRun}

/-- The buffers of a run. -/
def WalkRun.buffers (run : WalkRun) (h : ValidWalks graph job run) : WalkBuffers job.numWalks job.maxWalkLen where
  walksOut := run.walksOut
  walkLensOut := run.walkLensOut.map Int.ofNat
  maxWalkLen_pos := job.maxWalkLen_pos
  walksOut_length := h.walksOut_length
  walkLensOut_length := by rw [List.length_map, h.walkLensOut_length]

variable (hg : graph.WellFormed) (hstarts : job.StartsIn graph.numVertices) (h : ValidWalks graph job run)

theorem WalkRun.len_buffers (i : Nat) : (run.buffers h).len i = run.len i := by
  rw [WalkBuffers.len, WalkRun.buffers, WalkRun.len, List.getD_eq_getElem?_getD, List.getD_eq_getElem?_getD,
    List.getElem?_map]
  cases run.walkLensOut[i]? <;> rfl

include hg hstarts in
theorem ValidWalks.liveIn : (run.buffers h).LiveIn graph := by
  intro i hi k _ hlen
  rw [run.len_buffers] at hlen
  show InGraph graph (run.slot job i k)
  rcases Nat.eq_zero_or_pos k with rfl | hk
  · rw [h.start i hi]
    exact hstarts.start hi
  · obtain ⟨hprev, hmem, -⟩ := h.hop i hi k hk (by omega)
    have hu : (run.slot job i (k - 1)).v.toNat < graph.numVertices := by
      have := hprev.1
      have := hprev.2
      omega
    exact hg.target_mem _ hu _ (List.of_mem_zip hmem).2

theorem ValidWalks.documented {i : Nat} (hi : i < job.numWalks) :
    DocumentedWalk graph ((run.buffers h).slots i) (job.start i) ((run.buffers h).len i) job.maxWalkLen := by
  obtain ⟨hlo, hhi⟩ := h.len_mem i hi
  rw [run.len_buffers]
  refine ⟨h.start i hi, by omega, fun k hk hlt => ?_, fun k hk hlt => ?_, fun k hk hlt => ?_⟩
  · exact (h.hop i hi k hk (by omega)).2.2
  · exact (h.hop i hi k hk (by omega)).2.1
  · exact congrArg NodeStep.v (h.dead i hi k (by omega) hlt)

include hg hstarts in
/-- **The verifier passes every run of valid walks**, and its counts are those of the run. -/
theorem ValidWalks.verified : ∃ stats, verifyWalks graph (run.buffers h) = .ok stats ∧
    stats.walksChecked = run.stats.numWalks ∧ stats.edgesChecked + job.numWalks = run.stats.totalSteps ∧
    stats.deadAtStart = run.stats.deadAtStart := by
  obtain ⟨stats, hok, rfl⟩ := (verifyWalks_decides (run.buffers h) hg (h.liveIn hg hstarts)).complete
    fun i hi => (documentedWalk_iff.mp (h.documented hi)).1
  refine ⟨_, hok, ?_, ?_, ?_⟩
  · rw [WalkBuffers.walksChecked_stats, h.numWalks]
  · have hones : ((List.range job.numWalks).map fun _ => 1).sum = job.numWalks := by simp
    rw [WalkBuffers.edgesChecked_stats, h.totalSteps]
    refine (congrArg (_ + ·) hones.symm).trans (List.sum_map_add.symm.trans ?_)
    refine congrArg List.sum (List.map_congr_left fun i hi => ?_)
    have hpos := (h.len_mem i (List.mem_range.mp hi)).1
    rw [run.len_buffers, Int.toNat_natCast]
    exact Nat.sub_add_cancel hpos
  · rw [WalkBuffers.deadAtStart_stats, h.deadAtStart]
    apply List.countP_congr
    intro i _
    rw [run.len_buffers]
    simp

end verified

end Tea
