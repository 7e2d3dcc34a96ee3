import Tea.Tables.Alias
import Tea.Lib.Sums
import Mathlib.Algebra.BigOperators.Field
import Mathlib.Tactic.Ring
import Mathlib.Tactic.Linarith
/-!
# Vose's construction is exact

In exact arithmetic every entry of the table splits one unit of mass between its bucket and its alias, and
slot `i` receives `n * wᵢ / W` in total. The statement is about an arbitrary reading `g a i` of "mass `a` on
slot `i`" that is additive in `a` (`vose_law`): with `g a i = a * f i` it is an identity in the field, with
`g a i = ENNReal.ofReal a * f i` one about expectations.

Two invariants of the pairing loop carry the proof: the slots of `unders` have scaled weights in `[0, 1)`, those
of `overs` at least one (`Classified`); and the mass of the finished entries plus the scaled weights still on
the stacks stays the mass of the scaled weights at the start (`pairTrace_mass`). When one stack is empty,
the total mass leaves exactly one unit for every slot of the other (`scaled_eq_one`).
-/

namespace Tea

open Layout Arith AliasBuildScratch

variable {K : Type} [Field K] [LinearOrder K]

/-! ### Mass -/

section mass

variable {M : Type} [AddCommMonoid M] (g : K → Nat → M)

/-- The mass an entry written to a bucket puts on the bucket and on its alias. -/
def entryMass (w : Nat × AliasEntry K) : M := g w.2.prob w.1 + g (1 - w.2.prob) w.2.aliasOf

/-- The scaled weights on the stacks. -/
def stackMass (s : AliasBuildScratch K) : M := ((s.unders ++ s.overs).map fun i => g (s.scaled.getD i 0) i).sum

theorem stackMass_scaledScratch (weights : List K) (scale : K) :
    stackMass g (scaledScratch weights scale) =
      ∑ i ∈ Finset.range weights.length, g (weights.getD i 0 * scale) i := by
  rw [stackMass, ((scaledScratch_perm weights scale).map _).sum_eq, sum_map_range]
  refine Finset.sum_congr rfl fun i _ => ?_
  congr 1
  simp only [scaledScratch, List.getD_eq_getElem?_getD, List.getElem?_map]
  cases weights[i]? <;> simp

theorem sum_entryMass_voseTable (weights : List K) :
    ∑ b ∈ Finset.range weights.length, entryMass g (b, (voseTable weights).getD b ⟨0, 0⟩) =
      ((voseWrites weights).map (entryMass g)).sum := by
  rw [((voseWrites_perm weights).map _).sum_eq, List.map_map, sum_map_range]
  rfl

end mass

/-! ### The sides of the slots -/

/-- The stacks hold different slots, on the sides their scaled weights belong to. -/
structure AliasBuildScratch.Classified (s : AliasBuildScratch K) : Prop where
  nodup : (s.unders ++ s.overs).Nodup
  lt_length : ∀ i ∈ s.unders ++ s.overs, i < s.scaled.length
  under_nonneg : ∀ i ∈ s.unders, 0 ≤ s.scaled.getD i 0
  under_lt : ∀ i ∈ s.unders, s.scaled.getD i 0 < 1
  over_le : ∀ i ∈ s.overs, 1 ≤ s.scaled.getD i 0

namespace AliasBuildScratch.Classified

theorem push {s : AliasBuildScratch K} {i : Nat} (hnodup : (i :: (s.unders ++ s.overs)).Nodup)
    (hlt : ∀ j ∈ i :: (s.unders ++ s.overs), j < s.scaled.length) (hi : 0 ≤ s.scaled.getD i 0)
    (hnonneg : ∀ j ∈ s.unders, 0 ≤ s.scaled.getD j 0) (hunder : ∀ j ∈ s.unders, s.scaled.getD j 0 < 1)
    (hover : ∀ j ∈ s.overs, 1 ≤ s.scaled.getD j 0) : (s.push i).Classified := by
  unfold AliasBuildScratch.push
  split_ifs with h
  · rw [lt_exact, decide_eq_true_eq] at h
    refine ⟨hnodup, hlt, ?_, ?_, hover⟩
    · exact List.forall_mem_cons.mpr ⟨hi, hnonneg⟩
    · exact List.forall_mem_cons.mpr ⟨h, hunder⟩
  · rw [lt_exact, decide_eq_true_eq, not_lt] at h
    have hperm : (s.unders ++ i :: s.overs).Perm (i :: (s.unders ++ s.overs)) := List.perm_middle
    refine ⟨hperm.nodup_iff.mpr hnodup, fun j hj => hlt j (hperm.mem_iff.mp hj), hnonneg, hunder, ?_⟩
    exact List.forall_mem_cons.mpr ⟨h, hover⟩

variable [IsStrictOrderedRing K] {s s' : AliasBuildScratch K} {w : Nat × AliasEntry K}

theorem pair (hs : s.Classified) (h : s.pair = some (w, s')) : s'.Classified := by
  obtain ⟨iU, unders, iO, overs, hunder, hover, rfl, rfl⟩ := pair_eq_some h
  obtain ⟨hnodup, hlt, hnonneg, hult, hole⟩ := hs
  simp only [hunder, hover] at hnodup hlt hnonneg hult hole
  have hperm : (iU :: iO :: (unders ++ overs)).Perm (iU :: unders ++ iO :: overs) := List.perm_middle.symm.cons iU
  rw [← hperm.nodup_iff] at hnodup
  obtain ⟨hU, hnodup⟩ := List.nodup_cons.mp hnodup
  have hO : iO ∉ unders ++ overs := (List.nodup_cons.mp hnodup).1
  have hOlt : iO < s.scaled.length := hlt iO (by simp)
  have hkeep : ∀ (x : K), ∀ j ∈ unders ++ overs, (s.scaled.set iO x).getD j 0 = s.scaled.getD j 0 :=
    fun x j hj => getD_set_ne _ (ne_of_mem_of_not_mem hj hO).symm x 0
  refine push hnodup (fun j hj => ?_) ?_ (fun j hj => ?_) (fun j hj => ?_) (fun j hj => ?_)
  · rw [List.length_set]
    exact hlt j (hperm.mem_iff.mp (List.mem_cons_of_mem _ hj))
  · rw [getD_set_self hOlt]
    have := hnonneg iU (by simp)
    have := hole iO (by simp)
    linarith
  · rw [hkeep _ j (List.mem_append_left _ hj)]
    exact hnonneg j (List.mem_cons_of_mem _ hj)
  · rw [hkeep _ j (List.mem_append_left _ hj)]
    exact hult j (List.mem_cons_of_mem _ hj)
  · rw [hkeep _ j (List.mem_append_right _ hj)]
    exact hole j (List.mem_cons_of_mem _ hj)

theorem pairTrace (hs : s.Classified) (fuel : Nat) : (pairTrace fuel s).2.Classified := by
  induction fuel generalizing s with
  | zero => exact hs
  | succ fuel ih =>
      rw [Tea.pairTrace]
      split
      · rename_i w s' h
        exact ih (hs.pair h)
      · exact hs

end AliasBuildScratch.Classified

variable [IsStrictOrderedRing K]

theorem pairTrace_prob (fuel : Nat) {s : AliasBuildScratch K} (hs : s.Classified) :
    ∀ w ∈ (pairTrace fuel s).1, 0 ≤ w.2.prob ∧ w.2.prob ≤ 1 := by
  induction fuel generalizing s with
  | zero => simp [pairTrace]
  | succ fuel ih =>
      intro w hw
      rw [pairTrace] at hw
      split at hw
      · rename_i w' s' h
        rcases List.mem_cons.mp hw with rfl | hw
        · obtain ⟨iU, unders, iO, overs, hunder, hover, rfl, rfl⟩ := pair_eq_some h
          have hmem : iU ∈ s.unders := by simp [hunder]
          exact ⟨hs.under_nonneg iU hmem, (hs.under_lt iU hmem).le⟩
        · exact ih (hs.pair h) w hw
      · simp at hw

/-! ### The mass during the loop -/

section loopMass

variable {M : Type} [AddCommMonoid M] {g : K → Nat → M}

theorem pair_mass (hg : ∀ a b i, 0 ≤ a → 0 ≤ b → g (a + b) i = g a i + g b i) {s s' : AliasBuildScratch K}
    {w : Nat × AliasEntry K} (hs : s.Classified) (h : s.pair = some (w, s')) :
    entryMass g w + stackMass g s' = stackMass g s := by
  obtain ⟨iU, unders, iO, overs, hunder, hover, rfl, rfl⟩ := pair_eq_some h
  obtain ⟨hnodup, hlt, hnonneg, hult, hole⟩ := hs
  simp only [hunder, hover] at hnodup hlt hnonneg hult hole
  have hperm : (iU :: unders ++ iO :: overs).Perm (iU :: iO :: (unders ++ overs)) := List.perm_middle.cons iU
  have hO : iO ∉ unders ++ overs := (List.nodup_cons.mp (List.nodup_cons.mp (hperm.nodup_iff.mp hnodup)).2).1
  have hOlt : iO < s.scaled.length := hlt iO (by simp)
  set sU := s.scaled.getD iU 0
  set sO := s.scaled.getD iO 0
  have hU0 : 0 ≤ sU := hnonneg iU (by simp)
  have hU1 : sU < 1 := hult iU (by simp)
  have hO1 : 1 ≤ sO := hole iO (by simp)
  have hrest : ((unders ++ overs).map fun i => g ((s.scaled.set iO (sO + sU - 1)).getD i 0) i) =
      (unders ++ overs).map fun i => g (s.scaled.getD i 0) i :=
    List.map_congr_left fun i hi => by rw [getD_set_ne _ (ne_of_mem_of_not_mem hi hO).symm]
  have hleft : stackMass g (push ⟨unders, overs, s.scaled.set iO (sO + sU - 1)⟩ iO) =
      g (sO + sU - 1) iO + ((unders ++ overs).map fun i => g (s.scaled.getD i 0) i).sum := by
    rw [stackMass, scaled_push, ((push_perm _ iO).map _).sum_eq, List.map_cons, List.sum_cons, hrest]
    dsimp only
    rw [getD_set_self hOlt]
  have hright : stackMass g s =
      g sU iU + (g sO iO + ((unders ++ overs).map fun i => g (s.scaled.getD i 0) i).sum) := by
    rw [stackMass, hunder, hover, (hperm.map _).sum_eq, List.map_cons, List.map_cons, List.sum_cons, List.sum_cons]
  -- the alias gives what its bucket lacks
  have hsplit : g sO iO = g (1 - sU) iO + g (sO + sU - 1) iO := by
    rw [← hg _ _ _ (by linarith) (by linarith)]
    congr 1
    ring
  rw [hleft, hright, hsplit, entryMass]
  simp only [toFloat_exact, add_assoc]

theorem pairTrace_mass (hg : ∀ a b i, 0 ≤ a → 0 ≤ b → g (a + b) i = g a i + g b i) (fuel : Nat)
    {s : AliasBuildScratch K} (hs : s.Classified) :
    ((pairTrace fuel s).1.map (entryMass g)).sum + stackMass g (pairTrace fuel s).2 = stackMass g s := by
  induction fuel generalizing s with
  | zero => simp [pairTrace]
  | succ fuel ih =>
      rw [pairTrace]
      split
      · rename_i w s' h
        rw [List.map_cons, List.sum_cons, add_assoc, ih (hs.pair h)]
        exact pair_mass hg hs h
      · simp

end loopMass

/-! ### The end of the loop -/

theorem sum_lt_length {xs : List K} (h : ∀ x ∈ xs, x < 1) (hne : xs ≠ []) : xs.sum < xs.length := by
  induction xs with
  | nil => exact absurd rfl hne
  | cons x xs ih =>
      rw [List.sum_cons, List.length_cons]
      have hx := h x (by simp)
      push_cast
      rcases xs.eq_nil_or_concat with rfl | hxs
      · simpa using hx
      · have := ih (fun y hy => h y (List.mem_cons_of_mem _ hy)) (by rintro rfl; simp at hxs)
        linarith

theorem length_le_sum {xs : List K} (h : ∀ x ∈ xs, 1 ≤ x) : (xs.length : K) ≤ xs.sum := by
  induction xs with
  | nil => simp
  | cons x xs ih =>
      rw [List.sum_cons, List.length_cons]
      push_cast
      linarith [h x (by simp), ih fun y hy => h y (List.mem_cons_of_mem _ hy)]

theorem eq_one_of_sum_eq {xs : List K} (h : ∀ x ∈ xs, 1 ≤ x) (hsum : xs.sum = xs.length) : ∀ x ∈ xs, x = 1 := by
  induction xs with
  | nil => simp
  | cons x xs ih =>
      have hx := h x (by simp)
      have hxs : ∀ y ∈ xs, 1 ≤ y := fun y hy => h y (List.mem_cons_of_mem _ hy)
      have hle := length_le_sum hxs
      rw [List.sum_cons, List.length_cons] at hsum
      push_cast at hsum
      refine List.forall_mem_cons.mpr ⟨by linarith, ih hxs (by linarith)⟩

/-- When a stack is empty and one unit is left per slot, every slot left has scaled weight one. -/
theorem scaled_eq_one {s : AliasBuildScratch K} (hs : s.Classified) (hdone : s.unders = [] ∨ s.overs = [])
    (hmass : stackMass (fun a _ => a) s = ((s.unders ++ s.overs).length : K)) :
    ∀ i ∈ s.unders ++ s.overs, s.scaled.getD i 0 = 1 := by
  rw [stackMass] at hmass
  rcases hdone with hunder | hover
  · rw [hunder, List.nil_append] at hmass ⊢
    intro i hi
    refine eq_one_of_sum_eq (fun x hx => ?_) (by simpa using hmass) _
      (List.mem_map_of_mem (f := fun i => s.scaled.getD i 0) hi)
    obtain ⟨j, hj, rfl⟩ := List.mem_map.mp hx
    exact hs.over_le j hj
  · rw [hover, List.append_nil] at hmass ⊢
    by_contra hne
    push Not at hne
    obtain ⟨i, hi, -⟩ := hne
    refine absurd hmass (ne_of_lt ?_)
    have hlt : ∀ x ∈ s.unders.map fun i => s.scaled.getD i 0, x < 1 := by
      intro x hx
      obtain ⟨j, hj, rfl⟩ := List.mem_map.mp hx
      exact hs.under_lt j hj
    simpa using sum_lt_length hlt (by simpa using List.ne_nil_of_mem hi)

/-! ### The table -/

section law

variable {weights : List K}

theorem scaledScratch_classified (hw : ∀ w ∈ weights, 0 ≤ w) {scale : K} (hscale : 0 ≤ scale) :
    (scaledScratch weights scale).Classified := by
  have hperm := scaledScratch_perm weights scale
  have hget : ∀ i, (scaledScratch weights scale).scaled.getD i 0 = weights.getD i 0 * scale := by
    intro i
    simp only [scaledScratch, List.getD_eq_getElem?_getD, List.getElem?_map]
    cases weights[i]? <;> simp
  have hlt : ∀ i ∈ (scaledScratch weights scale).unders ++ (scaledScratch weights scale).overs,
      i < weights.length := fun i hi => List.mem_range.mp (hperm.mem_iff.mp hi)
  refine ⟨hperm.nodup_iff.mpr List.nodup_range, fun i hi => ?_, fun i hi => ?_, fun i hi => ?_, fun i hi => ?_⟩
  · simpa [scaledScratch] using hlt i hi
  · have hi' := hlt i (List.mem_append_left _ hi)
    rw [hget]
    refine mul_nonneg ?_ hscale
    rw [List.getD_eq_getElem _ _ hi']
    exact hw _ (List.getElem_mem hi')
  · rw [hget]
    simpa [scaledScratch] using (List.mem_filter.mp (List.mem_reverse.mp hi)).2
  · rw [hget]
    simpa [scaledScratch] using (List.mem_filter.mp (List.mem_reverse.mp hi)).2

theorem prob_mem_unit (hw : ∀ w ∈ weights, 0 ≤ w) (hsum : 0 ≤ weights.sum) {b : Nat} (hb : b < weights.length) :
    0 ≤ ((voseTable weights).getD b ⟨0, 0⟩).prob ∧ ((voseTable weights).getD b ⟨0, 0⟩).prob ≤ 1 := by
  have hmem := mem_voseWrites hb
  have hself : ∀ (slots : List Nat), ∀ w ∈ slots.map (fun i => (i, (⟨i, 1⟩ : AliasEntry K))),
      0 ≤ w.2.prob ∧ w.2.prob ≤ 1 := by
    intro slots w hw
    obtain ⟨i, -, rfl⟩ := List.mem_map.mp hw
    exact ⟨zero_le_one, le_rfl⟩
  have hclass : (scaledScratch weights (weights.length / weights.sum)).Classified :=
    scaledScratch_classified hw (div_nonneg (Nat.cast_nonneg _) hsum)
  generalize (voseTable weights).getD b ⟨0, 0⟩ = e at hmem
  unfold voseWrites at hmem
  simp only [sum_exact, ofInt_exact, Int.cast_natCast] at hmem
  split at hmem
  · exact hself _ _ hmem
  · rcases List.mem_append.mp hmem with hmem | hmem
    · exact pairTrace_prob _ hclass _ hmem
    · exact hself _ _ hmem

theorem pairTrace_scaled (hw : ∀ w ∈ weights, 0 ≤ w) (hsum : 0 < weights.sum) :
    let s := (pairTrace weights.length (scaledScratch weights (weights.length / weights.sum))).2
    ∀ i ∈ s.unders ++ s.overs, s.scaled.getD i 0 = 1 := by
  intro s
  set scale : K := weights.length / weights.sum
  have hclass : (scaledScratch weights scale).Classified :=
    scaledScratch_classified hw (div_nonneg (Nat.cast_nonneg _) hsum.le)
  have hlen : ((scaledScratch weights scale).unders ++ (scaledScratch weights scale).overs).length =
      weights.length := by simpa using (scaledScratch_perm weights scale).length_eq
  have hperm := pairTrace_perm weights.length (scaledScratch weights scale)
  have hstart : stackMass (fun a _ => a) (scaledScratch weights scale) = (weights.length : K) := by
    rw [stackMass_scaledScratch, ← Finset.sum_mul, sum_range_getD, mul_div_cancel₀ _ hsum.ne']
  have hmass := pairTrace_mass (g := fun a _ => a) (fun _ _ _ _ _ => rfl) weights.length hclass
  refine scaled_eq_one (hclass.pairTrace _) (pairTrace_done _ _ hlen.le) ?_
  have hunits : ((pairTrace weights.length (scaledScratch weights scale)).1.map
      (entryMass fun (a : K) _ => a)).sum =
      ((pairTrace weights.length (scaledScratch weights scale)).1.length : K) := by
    rw [List.map_congr_left (g := fun _ => (1 : K)) fun w _ => by simp [entryMass]]
    simp
  have hcount := hperm.length_eq
  rw [List.length_append, List.length_map, hlen] at hcount
  have hcast : ((pairTrace weights.length (scaledScratch weights scale)).1.length : K) +
      ((s.unders ++ s.overs).length : K) = weights.length := by exact_mod_cast hcount
  rw [hunits, hstart] at hmass
  linarith

/-- **Vose's table is exact**: its entries give every slot its share `n * wᵢ / W` of the mass. -/
theorem vose_law {M : Type} [AddCommMonoid M] {g : K → Nat → M}
    (hg : ∀ a b i, 0 ≤ a → 0 ≤ b → g (a + b) i = g a i + g b i) (hg0 : ∀ i, g 0 i = 0)
    (hw : ∀ w ∈ weights, 0 ≤ w) (hsum : 0 < weights.sum) :
    ∑ b ∈ Finset.range weights.length, entryMass g (b, (voseTable weights).getD b ⟨0, 0⟩) =
      ∑ i ∈ Finset.range weights.length, g (weights.getD i 0 * (weights.length / weights.sum)) i := by
  have hclass : (scaledScratch weights (weights.length / weights.sum)).Classified :=
    scaledScratch_classified hw (div_nonneg (Nat.cast_nonneg _) hsum.le)
  rw [sum_entryMass_voseTable, ← stackMass_scaledScratch, ← pairTrace_mass hg weights.length hclass]
  have hwrites : voseWrites weights = _ := if_neg (by simpa [sum_exact] using hsum)
  rw [hwrites]
  simp only [sum_exact, ofInt_exact, Int.cast_natCast, List.map_append, List.sum_append, List.map_map]
  congr 1
  -- a slot left on a stack keeps its one unit
  set s := (pairTrace weights.length (scaledScratch weights (weights.length / weights.sum))).2
  have hone : ∀ i ∈ s.unders ++ s.overs, s.scaled.getD i 0 = 1 := pairTrace_scaled hw hsum
  have hstack : stackMass g s = ((s.unders ++ s.overs).map fun i => g 1 i).sum := by
    rw [stackMass, List.map_congr_left fun i hi => by rw [hone i hi]]
  have hself : (entryMass g ∘ fun i => (i, (⟨i, 1⟩ : AliasEntry K))) = fun i => g 1 i := by
    funext i
    simp [entryMass, hg0]
  have hperm : (s.overs.reverse ++ s.unders.reverse).Perm (s.unders ++ s.overs) :=
    ((List.reverse_perm _).append (List.reverse_perm _)).trans List.perm_append_comm
  rw [hstack, hself, ← List.sum_append, ← List.map_append, (hperm.map _).sum_eq]

end law

end Tea
