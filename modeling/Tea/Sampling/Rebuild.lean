import Tea.Sampling.NeighborSets
import Tea.Sampling.Sampler
/-!
# Building an object again

One object may be built many times, on different graphs, with different biases and budgets (`replay`). The graph, the
tables, the index and the neighbor sets are then what the last call makes of a fresh object: their builds assign every
member.

`Hpat::build` has one path that does not: with a budget of zero it leaves `aux_index_` alone. After any sequence of
calls the object is as fresh exactly if the last budget is positive or the index was inactive before the last call
(`rebuilds_leave_no_trace`); otherwise the covers of an older graph stay in use (`rebuild_keeps_index`).
-/

namespace Tea

open Arith

variable {R P : Type} [Arith R]

/-- The calls one after another. -/
def replay {O C : Type} (on : O → C → O) (calls : List C) (object : O) : O := calls.foldl on object

theorem replay_append {O C : Type} (on : O → C → O) (calls : List C) (last : C) (object : O) :
    replay on (calls ++ [last]) object = on (replay on calls object) last := by
  rw [replay, List.foldl_append]
  rfl

theorem replay_inv {O C : Type} {on : O → C → O} {Inv : O → Prop} (h : ∀ object call, Inv object → Inv (on object call))
    (calls : List C) {object : O} (hobject : Inv object) : Inv (replay on calls object) := by
  induction calls generalizing object with
  | nil => exact hobject
  | cons call calls ih => exact ih (h object call hobject)

/-! ### The calls -/

/-- A call of `TemporalGraph::build`. -/
structure GraphCall where
  edges : List Edge
  numVertices : Int
  isDirected : Bool
  schedule : Schedule edges isDirected

def GraphCall.on (S : StdSort) (self : TemporalGraph) (call : GraphCall) : TemporalGraph :=
  self.build S call.edges call.numVertices call.isDirected call.schedule

/-- A call of `Pat::build`. -/
structure PatCall (R P : Type) where
  graph : TemporalGraph
  bias : Bias R P
  minTrunkSize : Int
  schedule : ForSchedule graph.numVertices

def PatCall.on (self : Pat R P) (call : PatCall R P) : Pat R P :=
  self.build call.graph call.bias call.minTrunkSize call.schedule

/-- A call of `AuxIndex::build`. -/
structure AuxCall where
  graph : TemporalGraph
  kMax : List Int
  isSolo : Option (List Bool)
  memoryBudgetBytes : Nat
  schedule : ForSchedule graph.numVertices

def AuxCall.on (self : AuxIndex) (call : AuxCall) : AuxIndex :=
  (self.build call.graph call.kMax call.isSolo call.memoryBudgetBytes call.schedule).1

/-- A call of `NeighborSets::build`. -/
structure NeighborCall where
  graph : TemporalGraph
  inputWasDirected : Bool
  schedule : OutSchedule graph

def NeighborCall.on (self : NeighborSets) (call : NeighborCall) : NeighborSets :=
  self.build call.graph call.inputWasDirected call.schedule

/-- A call of `Hpat::build`. -/
structure HpatCall (R P : Type) where
  graph : TemporalGraph
  bias : Bias R P
  auxBudgetBytes : Nat
  schedule : ForSchedule graph.numVertices
  auxSchedule : ForSchedule graph.numVertices

def HpatCall.on (self : Hpat R P) (call : HpatCall R P) : Hpat R P :=
  self.build call.graph call.bias call.auxBudgetBytes call.schedule call.auxSchedule

/-! ### `Hpat::build` and its index -/

/-- The object with another index. -/
def Hpat.withIndex (hpat : Hpat R P) (aux : AuxIndex) : Hpat R P := { hpat with auxIndex := aux }

theorem parallelFor_frame {L S : Type} {body : Nat → L → S → L × S} {frame : S → S}
    (h : ∀ i l s, body i l (frame s) = ((body i l s).1, frame (body i l s).2)) (steps : List (Nat × Nat))
    (locals : Nat → L) (s : S) : parallelFor body steps locals (frame s) = frame (parallelFor body steps locals s) := by
  induction steps generalizing locals s with
  | nil => rfl
  | cons step steps ih =>
      obtain ⟨thread, i⟩ := step
      simp only [parallelFor, h, ih]

theorem Hpat.buildVertex_withIndex (graph : TemporalGraph) (bias : Bias R P) (aux : AuxIndex) (u : Nat)
    (scratch : BuildScratch R) (hpat : Hpat R P) : Hpat.buildVertex graph bias u scratch (hpat.withIndex aux) =
      ((Hpat.buildVertex graph bias u scratch hpat).1, (Hpat.buildVertex graph bias u scratch hpat).2.withIndex aux) := by
  have hflags : (hpat.withIndex aux).isSolo = hpat.isSolo := rfl
  unfold Hpat.buildVertex
  dsimp only
  rw [hflags]
  by_cases hD : graph.degree u = 0
  · rw [if_pos hD, if_pos hD]
  rw [if_neg hD, if_neg hD]
  by_cases hsolo : hpat.isSolo.getD u false = true
  · rw [if_pos hsolo, if_pos hsolo]
    rfl
  · rw [if_neg hsolo, if_neg hsolo]
    rfl

/-- A build replaces everything but, with a budget of zero, the index. -/
theorem HpatCall.on_eq (self : Hpat R P) (call : HpatCall R P) : HpatCall.on self call =
    if 0 < call.auxBudgetBytes then HpatCall.on {} call else (HpatCall.on {} call).withIndex self.auxIndex := by
  have hstart : self.allocated call.graph call.bias =
      (Hpat.allocated {} call.graph call.bias).withIndex self.auxIndex := rfl
  have hloop := parallelFor_frame (Hpat.buildVertex_withIndex call.graph call.bias self.auxIndex) call.schedule.steps
    (fun _ => {}) (Hpat.allocated {} call.graph call.bias)
  rw [← hstart] at hloop
  unfold HpatCall.on Hpat.build
  unfold Hpat.allocated at hloop
  dsimp only at hloop ⊢
  rw [hloop]
  split_ifs with hbudget
  · rfl
  · rfl

theorem AuxIndex.build_inactive (self : AuxIndex) (graph : TemporalGraph) (kMax : List Int) (isSolo : Option (List Bool))
    (memoryBudgetBytes : Nat) (σ : ForSchedule graph.numVertices)
    (h : (self.build graph kMax isSolo memoryBudgetBytes σ).1.active = false) :
    (self.build graph kMax isSolo memoryBudgetBytes σ).1 = {} := by
  unfold AuxIndex.build at h ⊢
  dsimp only at h ⊢
  split_ifs at h ⊢
  rfl

/-- The index is active or empty. -/
def Hpat.IndexClear (hpat : Hpat R P) : Prop := hpat.auxIndex.active = false → hpat.auxIndex = {}

theorem HpatCall.on_indexClear (self : Hpat R P) (call : HpatCall R P) (h : self.IndexClear) :
    (HpatCall.on self call).IndexClear := by
  rw [HpatCall.on_eq]
  split_ifs with hbudget
  · unfold HpatCall.on Hpat.build
    dsimp only
    rw [if_pos hbudget]
    exact AuxIndex.build_inactive _ _ _ _ _ _
  · exact h

theorem replay_indexClear (calls : List (HpatCall R P)) : (replay HpatCall.on calls {}).IndexClear :=
  replay_inv HpatCall.on_indexClear calls fun _ => rfl

/-- What a user of the object sees of it: all members but the index, whether the index is active and its covers if it
is, and every sample. -/
structure Hpat.SameState (hpat hpat' : Hpat R P) : Prop where
  members : hpat.withIndex {} = hpat'.withIndex {}
  active : hpat.auxIndex.active = hpat'.auxIndex.active
  cover : hpat.auxIndex.active = true → ∀ u L, hpat.auxIndex.coverFor u L = hpat'.auxIndex.coverFor u L
  sample : ∀ graph bias u tPrev scratch,
    sampleHpat graph hpat bias u tPrev scratch = sampleHpat graph hpat' bias u tPrev scratch

theorem Hpat.SameState.refl (hpat : Hpat R P) : hpat.SameState hpat :=
  ⟨rfl, rfl, fun _ _ _ => rfl, fun _ _ _ _ _ => rfl⟩

/-- **When a build leaves no trace of earlier ones.** The graph, `Pat`, `AuxIndex` and `NeighborSets` are after any
sequence of builds what the last one makes of a fresh object. `Hpat` is so exactly if the last build has a positive
budget or finds the index inactive. -/
theorem rebuilds_leave_no_trace (S : StdSort) :
    (∀ (calls : List GraphCall) (last : GraphCall),
      replay (GraphCall.on S) (calls ++ [last]) {} = GraphCall.on S {} last) ∧
    (∀ (calls : List (PatCall R P)) (last : PatCall R P),
      replay PatCall.on (calls ++ [last]) {} = PatCall.on {} last) ∧
    (∀ (calls : List AuxCall) (last : AuxCall), replay AuxCall.on (calls ++ [last]) {} = AuxCall.on {} last) ∧
    (∀ (calls : List NeighborCall) (last : NeighborCall),
      replay NeighborCall.on (calls ++ [last]) {} = NeighborCall.on {} last) ∧
    (∀ (calls : List (HpatCall R P)) (last : HpatCall R P),
      (replay HpatCall.on (calls ++ [last]) {}).SameState (HpatCall.on {} last) ↔
        0 < last.auxBudgetBytes ∨ (replay HpatCall.on calls {}).auxIndex.active = false) := by
  refine ⟨fun calls last => ?_, fun calls last => ?_, fun calls last => ?_, fun calls last => ?_, fun calls last => ?_⟩
  · rw [replay_append]
    rfl
  · rw [replay_append]
    rfl
  · rw [replay_append]
    rfl
  · rw [replay_append]
    rfl
  rw [replay_append, HpatCall.on_eq]
  by_cases hbudget : 0 < last.auxBudgetBytes
  · rw [if_pos hbudget]
    exact ⟨fun _ => .inl hbudget, fun _ => Hpat.SameState.refl _⟩
  · have hfresh : (HpatCall.on {} last).auxIndex = ({} : AuxIndex) := by
      rw [HpatCall.on_eq, if_neg hbudget]
      rfl
    rw [if_neg hbudget]
    constructor
    · intro h
      exact .inr (h.active.trans (by rw [hfresh]))
    · intro h
      have hclear := replay_indexClear calls (h.resolve_left hbudget)
      have hsame : (HpatCall.on {} last).withIndex (replay HpatCall.on calls {}).auxIndex = HpatCall.on {} last := by
        rw [hclear]
        have hself : (HpatCall.on {} last).withIndex (HpatCall.on {} last).auxIndex = HpatCall.on {} last := rfl
        rwa [hfresh] at hself
      rw [hsame]
      exact Hpat.SameState.refl _

/-- A build without budget after one with the default budget: the index of the older graph stays active. -/
theorem rebuild_keeps_index :
    let graph := TemporalGraph.build StdSort.stable {} [⟨0, 1, 5⟩] 2 true (Schedule.serial _ _)
    let graph' := TemporalGraph.build StdSort.stable {} [⟨1, 0, 3⟩, ⟨0, 1, 4⟩] 2 true (Schedule.serial _ _)
    let calls : List (HpatCall ℚ Unit) :=
      [⟨graph, uniformBias, kAuxIndexMaxBytes, ForSchedule.serial _, ForSchedule.serial _⟩]
    let last : HpatCall ℚ Unit := ⟨graph', uniformBias, 0, ForSchedule.serial _, ForSchedule.serial _⟩
    (replay HpatCall.on (calls ++ [last]) {}).auxIndex.active = true ∧ (HpatCall.on {} last).auxIndex.active = false := by
  decide

end Tea
