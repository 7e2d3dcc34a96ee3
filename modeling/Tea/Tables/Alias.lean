import Tea.Base.Arith
import Tea.Lib.Layout
/-!
# Alias tables

`buildAliasInto` stamps Vose's table of some weights into a slice of an arena, reusing scratch buffers. Its
main loop takes a slot below its share and one above it, finishes the first with the second as alias, and puts
the second back with the rest of its mass.

What the call writes is `voseWrites`: one final write for every slot (`voseWrites_addresses`), whatever the
slice and the scratch held before (`buildAliasInto_fst`). So the result is `voseTable weights`, and all its
aliases are slots of the table (`aliasOf_lt`), however the arithmetic rounds.
-/

namespace Tea

open Layout Arith

/-- `AliasEntry`: a bucket keeps its index with probability `prob` and else yields `aliasOf`. -/
structure AliasEntry (R : Type) where
  aliasOf : Nat
  prob : R

/-- `AliasBuildScratch`: `unders` and `overs` are its stacks `under` and `over`, with `back()` the head of the list. -/
structure AliasBuildScratch (R : Type) where
  unders : List Nat := []
  overs : List Nat := []
  scaled : List R := []

variable {R : Type} [Arith R]

/-- `AliasView::sample`. -/
def aliasSample (entries : List (AliasEntry R)) (bucketIdx : Nat) (probRng : R) : Nat :=
  let e := entries.getD bucketIdx ⟨0, 0⟩
  if lt probRng e.prob then bucketIdx else e.aliasOf

/-! ### `build_alias_into` -/

namespace AliasBuildScratch

/-- Put slot `i` on the stack its scaled weight belongs to. -/
def push (s : AliasBuildScratch R) (i : Nat) : AliasBuildScratch R :=
  if lt (s.scaled.getD i 0) 1 then { s with unders := i :: s.unders } else { s with overs := i :: s.overs }

/-- One iteration of the scaling loop. -/
def scaleSlot (weights : List R) (scale : R) (s : AliasBuildScratch R) (i : Nat) : AliasBuildScratch R :=
  push { s with scaled := s.scaled.set i (weights.getD i 0 * scale) } i

/-- One iteration of the pairing loop: the entry it writes and the scratch it leaves, or `none` when one
stack is empty. -/
def pair (s : AliasBuildScratch R) : Option ((Nat × AliasEntry R) × AliasBuildScratch R) :=
  match s.unders, s.overs with
  | iU :: unders, iO :: overs =>
      let scaled := s.scaled.set iO ((s.scaled.getD iO 0 + s.scaled.getD iU 0) - 1)
      some ((iU, ⟨iO, toFloat (s.scaled.getD iU 0)⟩), push { unders, overs, scaled } iO)
  | _, _ => none

end AliasBuildScratch

open AliasBuildScratch

/-- The pairing loop, for at most `fuel` iterations. -/
def pairSlots : (fuel : Nat) → List (AliasEntry R) → AliasBuildScratch R →
    List (AliasEntry R) × AliasBuildScratch R
  | 0, out, s => (out, s)
  | fuel + 1, out, s =>
      match s.pair with
      | some (w, s') => pairSlots fuel (out.set w.1 w.2) s'
      | none => (out, s)

/-- `for i in slots: out[i] = AliasEntry{i, 1}`. -/
def selfAlias (out : List (AliasEntry R)) (slots : List Nat) : List (AliasEntry R) :=
  slots.foldl (fun out i => out.set i ⟨i, 1⟩) out

/-- `build_alias_into`. The pairing loop finishes a slot in every iteration, so `n` iterations are enough. -/
def buildAliasInto (out : List (AliasEntry R)) (weights : List R) (scratch : AliasBuildScratch R) :
    List (AliasEntry R) × AliasBuildScratch R :=
  let n := weights.length
  if n = 0 then (out, scratch)
  else
    let total := Arith.sum weights
    if le total 0 then (selfAlias out (List.range n), scratch)
    else
      let scale := ofInt n / total
      let scratch := { unders := [], overs := [], scaled := resize n 0 scratch.scaled }
      let scratch := (List.range n).foldl (scaleSlot weights scale) scratch
      let (out, scratch) := pairSlots n out scratch
      (selfAlias (selfAlias out scratch.overs.reverse) scratch.unders.reverse, scratch)

/-! ### The scaling loop -/

/-- The scratch after the scaling loop. -/
def scaledScratch (weights : List R) (scale : R) : AliasBuildScratch R where
  unders := ((List.range weights.length).filter fun i => lt (weights.getD i 0 * scale) 1).reverse
  overs := ((List.range weights.length).filter fun i => !lt (weights.getD i 0 * scale) 1).reverse
  scaled := weights.map (· * scale)

theorem foldl_scaleSlot (weights : List R) (scale : R) (stale : List R) (hlen : stale.length = weights.length) :
    (List.range weights.length).foldl (scaleSlot weights scale) { scaled := stale } =
      scaledScratch weights scale := by
  suffices h : ∀ k ≤ weights.length, (List.range k).foldl (scaleSlot weights scale) { scaled := stale } =
      { unders := ((List.range k).filter fun i => lt (weights.getD i 0 * scale) 1).reverse
        overs := ((List.range k).filter fun i => !lt (weights.getD i 0 * scale) 1).reverse
        scaled := (weights.take k).map (· * scale) ++ stale.drop k } by
    have h := h weights.length le_rfl
    rw [h, scaledScratch, List.take_length, List.drop_eq_nil_of_le hlen.le, List.append_nil]
  intro k hk
  induction k with
  | zero => simp
  | succ k ih =>
      have hk' : k < weights.length := by omega
      have hset : ((weights.take k).map (· * scale) ++ stale.drop k).set k (weights[k] * scale) =
          (weights.take (k + 1)).map (· * scale) ++ stale.drop (k + 1) := by
        have hlenk : ((weights.take k).map (· * scale)).length = k := by simp [hk'.le]
        rw [List.set_append_right _ _ hlenk.le, hlenk, Nat.sub_self,
          List.drop_eq_getElem_cons (by omega : k < stale.length), List.set_cons_zero,
          List.take_succ_eq_append_getElem hk', List.map_append, List.append_assoc]
        rfl
      have hget : ((weights.take (k + 1)).map (· * scale) ++ stale.drop (k + 1)).getD k 0 =
          weights[k] * scale := by
        rw [List.getD_eq_getElem?_getD, List.getElem?_append_left (by simp; omega)]
        simp [hk']
      have hw : weights.getD k 0 = weights[k] := by simp [List.getD_eq_getElem?_getD, hk']
      rw [List.range_succ, List.foldl_append, ih hk'.le]
      simp only [List.foldl_cons, List.foldl_nil, scaleSlot, push, hw, hset, hget, List.filter_append,
        List.filter_cons, List.filter_nil]
      by_cases hlt : lt (weights[k] * scale) 1 = true
      · simp [hlt]
      · simp [hlt]

theorem scaledScratch_perm (weights : List R) (scale : R) :
    ((scaledScratch weights scale).unders ++ (scaledScratch weights scale).overs).Perm
      (List.range weights.length) := by
  refine ((List.reverse_perm _).append (List.reverse_perm _)).trans ?_
  exact List.filter_append_perm _ _

/-! ### The pairing loop -/

/-- The writes of the pairing loop, and the scratch it leaves. -/
def pairTrace : (fuel : Nat) → AliasBuildScratch R → List (Nat × AliasEntry R) × AliasBuildScratch R
  | 0, s => ([], s)
  | fuel + 1, s =>
      match s.pair with
      | some (w, s') => (w :: (pairTrace fuel s').1, (pairTrace fuel s').2)
      | none => ([], s)

theorem pairSlots_eq (fuel : Nat) (out : List (AliasEntry R)) (s : AliasBuildScratch R) :
    pairSlots fuel out s = (writeAll out (pairTrace fuel s).1, (pairTrace fuel s).2) := by
  induction fuel generalizing out s with
  | zero => rfl
  | succ fuel ih =>
      rw [pairSlots, pairTrace]
      split
      · exact ih _ _
      · rfl

theorem AliasBuildScratch.pair_eq_some {s s' : AliasBuildScratch R} {w : Nat × AliasEntry R}
    (h : s.pair = some (w, s')) :
    ∃ iU unders iO overs, s.unders = iU :: unders ∧ s.overs = iO :: overs ∧
      w = (iU, ⟨iO, toFloat (s.scaled.getD iU 0)⟩) ∧
      s' = push ⟨unders, overs, s.scaled.set iO ((s.scaled.getD iO 0 + s.scaled.getD iU 0) - 1)⟩ iO := by
  unfold pair at h
  split at h
  · rename_i iU unders iO overs hunder hover
    obtain ⟨rfl, rfl⟩ := Prod.mk.inj (Option.some.inj h)
    exact ⟨iU, unders, iO, overs, hunder, hover, rfl, rfl⟩
  · cases h

theorem AliasBuildScratch.pair_eq_none {s : AliasBuildScratch R} (h : s.pair = none) :
    s.unders = [] ∨ s.overs = [] := by
  unfold pair at h
  split at h
  · cases h
  · rename_i hne
    cases hunder : s.unders with
    | nil => exact Or.inl rfl
    | cons iU unders =>
        cases hover : s.overs with
        | nil => exact Or.inr rfl
        | cons iO overs => exact absurd hover (hne iU unders iO overs hunder)

theorem AliasBuildScratch.push_perm (s : AliasBuildScratch R) (i : Nat) :
    ((push s i).unders ++ (push s i).overs).Perm (i :: (s.unders ++ s.overs)) := by
  unfold push
  split
  · exact List.Perm.refl _
  · exact List.perm_middle

@[simp] theorem AliasBuildScratch.scaled_push (s : AliasBuildScratch R) (i : Nat) :
    (push s i).scaled = s.scaled := by
  unfold push
  split <;> rfl

theorem AliasBuildScratch.pair_perm {s s' : AliasBuildScratch R} {w : Nat × AliasEntry R}
    (h : s.pair = some (w, s')) : (w.1 :: (s'.unders ++ s'.overs)).Perm (s.unders ++ s.overs) := by
  obtain ⟨iU, unders, iO, overs, hunder, hover, rfl, rfl⟩ := pair_eq_some h
  rw [hunder, hover]
  exact (((push_perm _ iO).trans List.perm_middle.symm).cons iU)

theorem pairTrace_perm (fuel : Nat) (s : AliasBuildScratch R) :
    ((pairTrace fuel s).1.map Prod.fst ++ ((pairTrace fuel s).2.unders ++ (pairTrace fuel s).2.overs)).Perm
      (s.unders ++ s.overs) := by
  induction fuel generalizing s with
  | zero => exact List.Perm.refl _
  | succ fuel ih =>
      rw [pairTrace]
      split
      · rename_i w s' h
        exact ((ih s').cons w.1).trans (pair_perm h)
      · exact List.Perm.refl _

theorem pairTrace_aliasOf_mem (fuel : Nat) (s : AliasBuildScratch R) :
    ∀ w ∈ (pairTrace fuel s).1, w.2.aliasOf ∈ s.unders ++ s.overs := by
  induction fuel generalizing s with
  | zero => simp [pairTrace]
  | succ fuel ih =>
      intro w hw
      rw [pairTrace] at hw
      split at hw
      · rename_i w' s' h
        rcases List.mem_cons.mp hw with rfl | hw
        · obtain ⟨iU, unders, iO, overs, hunder, hover, rfl, rfl⟩ := pair_eq_some h
          simp [hover]
        · exact (pair_perm h).mem_iff.mp (List.mem_cons_of_mem _ (ih s' w hw))
      · simp at hw

theorem pairTrace_done (fuel : Nat) (s : AliasBuildScratch R) (hfuel : (s.unders ++ s.overs).length ≤ fuel) :
    (pairTrace fuel s).2.unders = [] ∨ (pairTrace fuel s).2.overs = [] := by
  induction fuel generalizing s with
  | zero =>
      have hnil : s.unders ++ s.overs = [] := List.length_eq_zero_iff.mp (Nat.le_zero.mp hfuel)
      exact Or.inl (List.append_eq_nil_iff.mp hnil).1
  | succ fuel ih =>
      rw [pairTrace]
      split
      · rename_i w s' h
        have hlen := (pair_perm h).length_eq
        rw [List.length_cons] at hlen
        exact ih s' (by omega)
      · rename_i h
        exact pair_eq_none h

/-- The loop ends by its own condition, after at most as many iterations as there are slots on the stacks. -/
theorem pairSlots_halts (out : List (AliasEntry R)) (s : AliasBuildScratch R) (fuel : Nat)
    (hfuel : (s.unders ++ s.overs).length ≤ fuel) :
    (pairSlots fuel out s).2.pair = none ∧ pairSlots (fuel + 1) out s = pairSlots fuel out s := by
  induction fuel generalizing out s with
  | zero =>
      have hnil : s.unders ++ s.overs = [] := List.length_eq_zero_iff.mp (Nat.le_zero.mp hfuel)
      have hnone : s.pair = none := by
        rw [AliasBuildScratch.pair, (List.append_eq_nil_iff.mp hnil).1]
      exact ⟨hnone, by simp only [pairSlots, hnone]⟩
  | succ fuel ih =>
      cases h : s.pair with
      | none =>
          exact ⟨by simp only [pairSlots, h], by simp only [pairSlots, h]⟩
      | some r =>
          have hperm : (r.1.1 :: (r.2.unders ++ r.2.overs)).Perm (s.unders ++ s.overs) := pair_perm h
          have hlen := hperm.length_eq
          rw [List.length_cons] at hlen
          have hstep : ∀ m, pairSlots (m + 1) out s = pairSlots m (out.set r.1.1 r.1.2) r.2 := by
            intro m
            rw [pairSlots, h]
          rw [hstep, hstep]
          exact ih _ r.2 (by omega)

/-! ### The whole call -/

theorem selfAlias_eq (out : List (AliasEntry R)) (slots : List Nat) :
    selfAlias out slots = writeAll out (slots.map fun i => (i, ⟨i, 1⟩)) := by
  rw [selfAlias, writeAll, List.foldl_map]

/-- The writes of the call, in order. -/
def voseWrites (weights : List R) : List (Nat × AliasEntry R) :=
  let total := Arith.sum weights
  if le total 0 then (List.range weights.length).map fun i => (i, ⟨i, 1⟩)
  else
    let trace := pairTrace weights.length (scaledScratch weights (ofInt weights.length / total))
    trace.1 ++ (trace.2.overs.reverse ++ trace.2.unders.reverse).map fun i => (i, ⟨i, 1⟩)

theorem voseWrites_addresses (weights : List R) :
    ((voseWrites weights).map Prod.fst).Perm (List.range weights.length) := by
  unfold voseWrites
  dsimp only
  split
  · simp [List.map_map, Function.comp_def]
  · set scale := ofInt weights.length / Arith.sum weights
    have hperm := (pairTrace_perm weights.length (scaledScratch weights scale)).trans
      (scaledScratch_perm weights scale)
    simp only [List.map_append, List.map_map, Function.comp_def, List.map_id']
    refine List.Perm.trans ?_ hperm
    exact List.Perm.append_left _
      (((List.reverse_perm _).append (List.reverse_perm _)).trans List.perm_append_comm)

theorem voseWrites_aliasOf_lt (weights : List R) :
    ∀ w ∈ voseWrites weights, w.2.aliasOf < weights.length := by
  intro w hw
  have haddr : w.1 < weights.length :=
    List.mem_range.mp ((voseWrites_addresses weights).mem_iff.mp (List.mem_map_of_mem hw))
  unfold voseWrites at hw
  dsimp only at hw
  split at hw
  · obtain ⟨i, -, rfl⟩ := List.mem_map.mp hw
    exact haddr
  · rcases List.mem_append.mp hw with hw | hw
    · have hmem := pairTrace_aliasOf_mem _ _ w hw
      exact List.mem_range.mp ((scaledScratch_perm weights _).mem_iff.mp hmem)
    · obtain ⟨i, -, rfl⟩ := List.mem_map.mp hw
      exact haddr

theorem buildAliasInto_fst (out : List (AliasEntry R)) (weights : List R) (scratch : AliasBuildScratch R) :
    (buildAliasInto out weights scratch).1 = writeAll out (voseWrites weights) := by
  unfold buildAliasInto voseWrites
  dsimp only
  split_ifs with hn htotal
  · rw [hn]
    rfl
  · rw [List.length_eq_zero_iff.mp hn]
    rfl
  · rw [selfAlias_eq]
  · rw [foldl_scaleSlot weights _ _ (length_resize _ _ _), pairSlots_eq]
    dsimp only
    rw [selfAlias_eq, selfAlias_eq, ← writeAll_append, ← writeAll_append, List.map_append]

/-- Vose's table of the weights. -/
def voseTable (weights : List R) : List (AliasEntry R) :=
  writeAll (List.replicate weights.length ⟨0, 0⟩) (voseWrites weights)

@[simp] theorem length_voseTable (weights : List R) : (voseTable weights).length = weights.length := by
  simp [voseTable]

/-- Whatever the slice and the scratch held, the call leaves the table of the weights. -/
theorem buildAliasInto_eq {out : List (AliasEntry R)} {weights : List R} (h : out.length = weights.length)
    (scratch : AliasBuildScratch R) : (buildAliasInto out weights scratch).1 = voseTable weights := by
  rw [buildAliasInto_fst, voseTable]
  exact writeAll_congr (by simpa using h) (by simpa using voseWrites_addresses weights)

theorem voseWrites_perm (weights : List R) : (voseWrites weights).Perm
    ((List.range weights.length).map fun b => (b, (voseTable weights).getD b ⟨0, 0⟩)) := by
  have haddr : ((voseWrites weights).map Prod.fst).Perm
      (List.range (List.replicate weights.length (⟨0, 0⟩ : AliasEntry R)).length) := by
    rw [List.length_replicate]
    exact voseWrites_addresses weights
  have h := perm_writeAll (⟨0, 0⟩ : AliasEntry R) haddr
  rwa [List.length_replicate] at h

theorem mem_voseWrites {weights : List R} {b : Nat} (hb : b < weights.length) :
    (b, (voseTable weights).getD b (⟨0, 0⟩ : AliasEntry R)) ∈ voseWrites weights :=
  (voseWrites_perm weights).mem_iff.mpr (List.mem_map_of_mem (List.mem_range.mpr hb))

theorem aliasOf_lt (weights : List R) {b : Nat} (hb : b < weights.length) :
    ((voseTable weights).getD b ⟨0, 0⟩).aliasOf < weights.length :=
  voseWrites_aliasOf_lt weights _ (mem_voseWrites hb)

theorem aliasSample_lt (weights : List R) {b : Nat} (hb : b < weights.length) (c : R) :
    aliasSample (voseTable weights) b c < weights.length := by
  unfold aliasSample
  dsimp only
  split
  · exact hb
  · exact aliasOf_lt weights hb

end Tea
