import Mathlib.Data.List.Induction
import Mathlib.Data.List.Sort
import Mathlib.Data.List.Perm.Basic
import Mathlib.Data.List.GetD
import Mathlib.Logic.Equiv.Basic
/-!
# Sorting through a comparator on keys

`std::sort` is not stable: its order among elements with equal keys is unspecified. What the callers may rely
on is that it is a deterministic function of its input that looks at the elements through the comparator
only. Then the permutation it applies is a function of the key sequence, and depends on it only through the
comparisons' outcomes. `StdSort` is any such function; `sort` applies its permutation.
-/

namespace Tea

/-- A deterministic sorting function that sees only comparisons of integer keys: `order keys` lists the
source position of every output position. -/
structure StdSort where
  order : List Int → List Nat
  order_perm : ∀ keys, (order keys).Perm (List.range keys.length)
  order_sorted : ∀ keys, ((order keys).map fun i => keys.getD i 0).Pairwise (· ≤ ·)
  order_congr : ∀ keys keys' : List Int, keys.length = keys'.length →
    (∀ i j, i < keys.length → j < keys.length →
      (keys.getD i 0 < keys.getD j 0 ↔ keys'.getD i 0 < keys'.getD j 0)) → order keys = order keys'

namespace StdSort

variable {α : Type} (S : StdSort)

/-- Apply the permutation for the keys of `xs` to `xs`. -/
def sort (key : α → Int) (xs : List α) : List α := (S.order (xs.map key)).filterMap fun i => xs[i]?

theorem filterMap_range_getElem? (xs : List α) :
    (List.range xs.length).filterMap (fun i => xs[i]?) = xs := by
  induction xs using List.reverseRecOn with
  | nil => rfl
  | append_singleton xs x ih =>
      rw [List.length_append, List.length_singleton, List.range_succ, List.filterMap_append]
      congr 1
      · refine Eq.trans (List.filterMap_congr fun i hi => ?_) ih
        exact List.getElem?_append_left (List.mem_range.mp hi)
      · simp

theorem sort_perm (key : α → Int) (xs : List α) : (S.sort key xs).Perm xs := by
  have h := (S.order_perm (xs.map key)).filterMap fun i => xs[i]?
  rwa [List.length_map, filterMap_range_getElem?] at h

theorem lt_of_mem_order {keys : List Int} {i : Nat} (hi : i ∈ S.order keys) : i < keys.length :=
  List.mem_range.mp ((S.order_perm keys).mem_iff.mp hi)

theorem sort_eq_map (key : α → Int) (xs : List α) (d : α) :
    S.sort key xs = (S.order (xs.map key)).map fun i => xs.getD i d := by
  rw [← List.filterMap_eq_map]
  refine List.filterMap_congr fun i hi => ?_
  have hlen : i < xs.length := by simpa using S.lt_of_mem_order hi
  simp [List.getElem?_eq_getElem hlen]

theorem sort_sorted (key : α → Int) (xs : List α) :
    ((S.sort key xs).map key).Pairwise (· ≤ ·) := by
  cases xs with
  | nil => simp [S.sort_perm key [] |>.eq_nil]
  | cons x xs =>
      have h := S.order_sorted ((x :: xs).map key)
      rw [S.sort_eq_map key (x :: xs) x, List.map_map]
      refine (List.pairwise_map.mp h |> List.pairwise_map.mpr ∘ fun h => ?_)
      refine List.Pairwise.imp_of_mem (fun {i j} hi hj hle => ?_) h
      have hi' : i < (x :: xs).length := by simpa using S.lt_of_mem_order hi
      have hj' : j < (x :: xs).length := by simpa using S.lt_of_mem_order hj
      simpa only [Function.comp_apply, List.getD_eq_getElem _ _ hi', List.getD_eq_getElem _ _ hj',
        List.getD_eq_getElem _ _ (show i < ((x :: xs).map key).length by simpa using hi'),
        List.getD_eq_getElem _ _ (show j < ((x :: xs).map key).length by simpa using hj'),
        List.getElem_map] using hle

theorem sort_of_length_le_one (key : α → Int) (xs : List α) (h : xs.length ≤ 1) :
    S.sort key xs = xs := by
  have hperm := S.sort_perm key xs
  match xs, h with
  | [], _ => exact hperm.eq_nil
  | [x], _ => exact List.perm_singleton.mp hperm

theorem sort_eq_of_perm (S' : StdSort) (key : α → Int) {xs ys : List α} (hperm : xs.Perm ys)
    (hties : ∀ x ∈ xs, ∀ y ∈ xs, key x = key y → x = y) : S.sort key xs = S'.sort key ys := by
  have hx := S.sort_perm key xs
  have hy := (S'.sort_perm key ys).trans hperm.symm
  have hsx := List.pairwise_map.mp (S.sort_sorted key xs)
  have hsy := List.pairwise_map.mp (S'.sort_sorted key ys)
  refine List.Perm.eq_of_pairwise (fun a b ha hb hab hba => ?_) hsx hsy (hx.trans hy.symm)
  exact hties a (hx.mem_iff.mp ha) b (hy.mem_iff.mp hb) (le_antisymm hab hba)

/-- On two lists with the same keys the same permutation is applied, so only equal lists come out equal. -/
theorem eq_of_sort_eq (key : α → Int) {xs ys : List α} (hkeys : xs.map key = ys.map key)
    (h : S.sort key xs = S.sort key ys) : xs = ys := by
  have hlen : xs.length = ys.length := by simpa using congrArg List.length hkeys
  cases xs with
  | nil => exact (List.eq_nil_of_length_eq_zero hlen.symm).symm
  | cons x xs =>
      rw [S.sort_eq_map key _ x, S.sort_eq_map key _ x, ← hkeys] at h
      apply List.ext_getElem hlen
      intro i hi hi'
      have hmem : i ∈ S.order ((x :: xs).map key) :=
        (S.order_perm _).mem_iff.mpr (List.mem_range.mpr (by simpa using hi))
      have := List.map_inj_left.mp h i hmem
      rwa [List.getD_eq_getElem _ _ hi, List.getD_eq_getElem _ _ hi'] at this

/-! ### A stable sort -/

/-- Insertion sort of the positions by their keys. -/
def stable : StdSort where
  order keys := (List.range keys.length).insertionSort fun i j => keys.getD i 0 ≤ keys.getD j 0
  order_perm keys := List.perm_insertionSort _ _
  order_sorted keys := by
    have : Std.Total fun i j : Nat => keys.getD i 0 ≤ keys.getD j 0 := ⟨fun i j => le_total _ _⟩
    have : IsTrans Nat fun i j => keys.getD i 0 ≤ keys.getD j 0 := ⟨fun _ _ _ => le_trans⟩
    exact List.pairwise_map.mpr (List.pairwise_insertionSort _ _)
  order_congr keys keys' hlen h := by
    rw [← hlen]
    have := List.map_insertionSort (fun i j => keys.getD i 0 ≤ keys.getD j 0)
      (fun i j => keys'.getD i 0 ≤ keys'.getD j 0) id (List.range keys.length) fun i hi j hj => by
        have := h j i (List.mem_range.mp hj) (List.mem_range.mp hi)
        rw [id, id, ← not_lt, ← not_lt, this]
    simpa using this

/-! ### Two inputs that compare differently can be sorted differently -/

/-- All comparisons of the two key sequences agree. -/
def SamePattern (keys keys' : List Int) : Prop :=
  keys.length = keys'.length ∧ ∀ i j, i < keys.length → j < keys.length →
    (keys.getD i 0 < keys.getD j 0 ↔ keys'.getD i 0 < keys'.getD j 0)

theorem SamePattern.symm {keys keys' : List Int} (h : SamePattern keys keys') : SamePattern keys' keys :=
  ⟨h.1.symm, fun i j hi hj => (h.2 i j (h.1 ▸ hi) (h.1 ▸ hj)).symm⟩

theorem SamePattern.trans {k₁ k₂ k₃ : List Int} (h : SamePattern k₁ k₂) (h' : SamePattern k₂ k₃) :
    SamePattern k₁ k₃ :=
  ⟨h.1.trans h'.1, fun i j hi hj => (h.2 i j hi hj).trans (h'.2 i j (h.1 ▸ hi) (h.1 ▸ hj))⟩

open Classical in
/-- Sort like `S`, but apply the permutation `order'` where the comparisons are those of `keys'`. -/
noncomputable def override (S : StdSort) (keys' : List Int) (order' : List Nat)
    (hperm : order'.Perm (List.range keys'.length))
    (hsorted : (order'.map fun i => keys'.getD i 0).Pairwise (· ≤ ·)) : StdSort where
  order keys := if SamePattern keys' keys then order' else S.order keys
  order_perm keys := by
    split_ifs with h
    · rw [← h.1]
      exact hperm
    · exact S.order_perm keys
  order_sorted keys := by
    split_ifs with h
    · have hlt : ∀ i ∈ order', i < keys'.length := fun i hi => List.mem_range.mp (hperm.mem_iff.mp hi)
      refine List.pairwise_map.mpr (List.Pairwise.imp_of_mem (fun {i j} hi hj hle => ?_)
        (List.pairwise_map.mp hsorted))
      exact not_lt.mp fun hlt' => absurd ((h.2 j i (hlt j hj) (hlt i hi)).mpr hlt') (not_lt.mpr hle)
    · exact S.order_sorted keys
  order_congr keys keys'' hlen h := by
    have hpattern : SamePattern keys keys'' := ⟨hlen, h⟩
    by_cases hk : SamePattern keys' keys
    · rw [if_pos hk, if_pos (hk.trans hpattern)]
    · rw [if_neg hk, if_neg fun h' => hk (h'.trans hpattern.symm), S.order_congr keys keys'' hlen h]

theorem map_swap_order {keys : List Int} {i j : Nat} (hi : i < keys.length) (hj : j < keys.length)
    (hij : keys[i] = keys[j]) :
    ((S.order keys).map (Equiv.swap i j)).Perm (List.range keys.length) ∧
      (((S.order keys).map (Equiv.swap i j)).map fun k => keys.getD k 0).Pairwise (· ≤ ·) := by
  have hlt : ∀ k, k < keys.length → Equiv.swap i j k < keys.length := by
    intro k hk
    rw [Equiv.swap_apply_def]
    split_ifs <;> assumption
  have hkey : ∀ k, keys.getD (Equiv.swap i j k) 0 = keys.getD k 0 := by
    intro k
    rw [Equiv.swap_apply_def]
    split_ifs with h1 h2
    · rw [h1, List.getD_eq_getElem _ _ hj, List.getD_eq_getElem _ _ hi, hij]
    · rw [h2, List.getD_eq_getElem _ _ hi, List.getD_eq_getElem _ _ hj, hij]
    · rfl
  constructor
  · refine ((S.order_perm _).map _).trans ?_
    have hnodup : ((List.range keys.length).map (Equiv.swap i j)).Nodup := List.nodup_range.map (Equiv.injective _)
    refine (List.subperm_of_subset hnodup fun k hk => ?_).perm_of_length_le (by simp)
    obtain ⟨m, hm, rfl⟩ := List.mem_map.mp hk
    exact List.mem_range.mpr (hlt m (List.mem_range.mp hm))
  · rw [List.map_map]
    simp only [Function.comp_def, hkey]
    exact S.order_sorted keys

/-- If two lists compare differently and the second has two different elements with one key, some sorting
function tells the lists apart. -/
theorem exists_sort_ne (key : α → Int) {xs ys : List α}
    (hpattern : ¬ SamePattern (ys.map key) (xs.map key))
    (hties : ∃ a ∈ ys, ∃ b ∈ ys, key a = key b ∧ a ≠ b) : ∃ S : StdSort, S.sort key xs ≠ S.sort key ys := by
  by_cases hstable : stable.sort key xs = stable.sort key ys
  swap
  · exact ⟨stable, hstable⟩
  obtain ⟨a, ha, b, hb, hab, hne⟩ := hties
  obtain ⟨i, hi, rfl⟩ := List.mem_iff_getElem.mp ha
  obtain ⟨j, hj, rfl⟩ := List.mem_iff_getElem.mp hb
  -- on lists that compare like `ys`, exchange the positions of the two tied elements
  have hi' : i < (ys.map key).length := by simpa using hi
  have hj' : j < (ys.map key).length := by simpa using hj
  obtain ⟨hperm, hsorted⟩ := stable.map_swap_order hi' hj' (by simpa using hab)
  refine ⟨stable.override _ _ hperm hsorted, fun h => hne ?_⟩
  have hxs : (stable.override _ _ hperm hsorted).sort key xs = stable.sort key xs := by
    simp only [sort, override, if_neg hpattern]
  have hself : SamePattern (ys.map key) (ys.map key) := ⟨rfl, fun _ _ _ _ => Iff.rfl⟩
  rw [hxs, hstable, sort_eq_map _ _ _ ys[i], sort_eq_map _ _ _ ys[i]] at h
  simp only [override, if_pos hself, List.map_map] at h
  have hmem : i ∈ stable.order (ys.map key) :=
    (stable.order_perm _).mem_iff.mpr (List.mem_range.mpr (by simpa using hi))
  have := List.map_inj_left.mp h i hmem
  rwa [Function.comp_apply, List.getD_eq_getElem _ _ hi, Equiv.swap_apply_left, List.getD_eq_getElem _ _ hj] at this

end StdSort

end Tea
