import Mathlib.Algebra.BigOperators.Group.List.Basic
import Mathlib.Data.List.Perm.Basic
import Mathlib.Data.List.GetD
import Mathlib.Tactic.Linarith
/-!
# Flat arenas

A flat arena holds variable-length blocks one after another, addressed through an array of offsets. The
offsets come from an exclusive scan of the block lengths (`exclusiveScan`), a block is read as a `slice`
and written back as a `splice`, and single cells are written by `writeAll`.

* The slice at the scan's offset is the block (`slice_flatten`), and splicing the blocks in order into an
  arena of the total size leaves their concatenation (`splice_append`).
* Blocks may be spliced in at their offsets in any order (`foldl_splice_eq`).
* Writes to distinct cells commute (`writeAll_perm`), and writes that put the right value into every cell
  produce the whole array (`writeAll_eq`).
-/

namespace Tea.Layout

variable {α β : Type}

/-! ### Slices -/

/-- The cells `[off, off + len)`. -/
def slice (xs : List α) (off len : Nat) : List α := (xs.drop off).take len

/-- Overwrite the cells from `off` on with `ys`. -/
def splice (xs : List α) (off : Nat) (ys : List α) : List α :=
  xs.take off ++ ys ++ xs.drop (off + ys.length)

theorem length_slice {xs : List α} {off len : Nat} (h : off + len ≤ xs.length) :
    (slice xs off len).length = len := by
  simp only [slice, List.length_take, List.length_drop]
  omega

theorem getElem?_slice (xs : List α) (off len i : Nat) :
    (slice xs off len)[i]? = if i < len then xs[off + i]? else none := by
  simp [slice, List.getElem?_take, List.getElem?_drop]

@[simp] theorem map_slice (f : α → β) (xs : List α) (off len : Nat) :
    (slice xs off len).map f = slice (xs.map f) off len := by
  simp [slice, List.map_take, List.map_drop]

theorem slice_zero_length (xs : List α) : slice xs 0 xs.length = xs := by
  simp [slice]

theorem slice_append_left (pre mid post : List α) :
    slice (pre ++ mid ++ post) pre.length mid.length = mid := by
  simp [slice]

theorem slice_slice (xs : List α) (off len off' len' : Nat) (h : off' + len' ≤ len) :
    slice (slice xs off len) off' len' = slice xs (off + off') len' := by
  apply List.ext_getElem?
  intro i
  simp only [getElem?_slice, ← Nat.add_assoc]
  split_ifs <;> first | rfl | omega

theorem mem_of_mem_slice {xs : List α} {off len : Nat} {x : α} (h : x ∈ slice xs off len) : x ∈ xs :=
  List.mem_of_mem_drop (List.mem_of_mem_take h)

@[simp] theorem length_splice {xs : List α} {off : Nat} {ys : List α} (h : off + ys.length ≤ xs.length) :
    (splice xs off ys).length = xs.length := by
  simp only [splice, List.length_append, List.length_take, List.length_drop]
  omega

theorem splice_append (pre mid post ys : List α) (h : mid.length = ys.length) :
    splice (pre ++ mid ++ post) pre.length ys = pre ++ ys ++ post := by
  simp [splice, List.append_assoc, ← h]

theorem getElem?_splice {xs : List α} {off : Nat} {ys : List α} (h : off + ys.length ≤ xs.length) (p : Nat) :
    (splice xs off ys)[p]? = if off ≤ p ∧ p < off + ys.length then ys[p - off]? else xs[p]? := by
  rw [splice, List.append_assoc, List.getElem?_append, List.length_take, Nat.min_eq_left (by omega)]
  by_cases hlow : p < off
  · rw [if_pos hlow, if_neg (by omega), List.getElem?_take, if_pos hlow]
  · rw [if_neg hlow, List.getElem?_append, List.getElem?_drop]
    split_ifs
    · rfl
    · omega
    · omega
    · congr 1
      omega

theorem splice_nil {xs : List α} (off : Nat) : splice xs off [] = xs := by
  simp [splice]

theorem set_eq_splice {xs : List α} {p : Nat} (hp : p < xs.length) (y : α) : xs.set p y = splice xs p [y] := by
  rw [splice, List.set_eq_take_append_cons_drop, if_pos hp, List.append_assoc]
  rfl

theorem set_last {xs : List α} {n : Nat} (h : xs.length = n + 1) (y : α) : xs.set n y = xs.take n ++ [y] := by
  rw [List.set_eq_take_append_cons_drop, if_pos (by omega), List.drop_eq_nil_of_le h.le]

theorem splice_splice {xs : List α} {off : Nat} {ys zs : List α} (h : off + ys.length + zs.length ≤ xs.length) :
    splice (splice xs off ys) (off + ys.length) zs = splice xs off (ys ++ zs) := by
  apply List.ext_getElem?
  intro p
  have h1 : off + ys.length ≤ xs.length := by omega
  rw [getElem?_splice (by rw [length_splice h1]; exact h), getElem?_splice h1,
    getElem?_splice (by rw [List.length_append]; omega), List.getElem?_append, List.length_append]
  split_ifs <;> first | rfl | omega | skip
  congr 1
  omega

theorem set_splice_end {xs : List α} {off : Nat} {ys : List α} (h : off + ys.length < xs.length) (y : α) :
    (splice xs off ys).set (off + ys.length) y = splice xs off (ys ++ [y]) := by
  rw [set_eq_splice (by rw [length_splice h.le]; exact h)]
  exact splice_splice h

theorem take_splice {xs : List α} {off m : Nat} {ys : List α} (h : off + ys.length ≤ m) (hm : m ≤ xs.length) :
    (splice xs off ys).take m = splice (xs.take m) off ys := by
  apply List.ext_getElem?
  intro p
  rw [List.getElem?_take, getElem?_splice (h.trans hm), getElem?_splice (by simpa [hm] using h),
    List.getElem?_take]
  split_ifs <;> first | rfl | omega

theorem slice_splice {xs : List α} {off : Nat} {ys : List α} (h : off + ys.length ≤ xs.length) :
    slice (splice xs off ys) off ys.length = ys := by
  apply List.ext_getElem?
  intro i
  rw [getElem?_slice, getElem?_splice h]
  split_ifs with hi hin
  · rw [Nat.add_sub_cancel_left]
  · omega
  · rw [List.getElem?_eq_none (by omega)]

/-! ### The exclusive scan -/

/-- `offsets[u] = total; total += lens[u]` for every `u`, and the total in the last cell. -/
def exclusiveScan : (total : Nat) → List Nat → List Nat
  | total, [] => [total]
  | total, len :: lens => total :: exclusiveScan (total + len) lens

@[simp] theorem length_exclusiveScan (total : Nat) (lens : List Nat) :
    (exclusiveScan total lens).length = lens.length + 1 := by
  induction lens generalizing total with
  | nil => rfl
  | cons len lens ih => simp [exclusiveScan, ih]

theorem getElem?_exclusiveScan (total : Nat) (lens : List Nat) (u : Nat) (hu : u ≤ lens.length) :
    (exclusiveScan total lens)[u]? = some (total + (lens.take u).sum) := by
  induction lens generalizing total u with
  | nil =>
      obtain rfl : u = 0 := by simpa using hu
      simp [exclusiveScan]
  | cons len lens ih =>
      cases u with
      | zero => simp [exclusiveScan]
      | succ u =>
          rw [exclusiveScan, List.getElem?_cons_succ, ih (total + len) u (by simpa using hu)]
          simp [Nat.add_assoc]

theorem getD_exclusiveScan (lens : List Nat) (u : Nat) (hu : u ≤ lens.length) :
    (exclusiveScan 0 lens).getD u 0 = (lens.take u).sum := by
  rw [List.getD_eq_getElem?_getD, getElem?_exclusiveScan 0 lens u hu]
  simp

theorem getLastD_exclusiveScan (lens : List Nat) : (exclusiveScan 0 lens).getLastD 0 = lens.sum := by
  rw [List.getLastD_eq_getLast?, List.getLast?_eq_getElem?, length_exclusiveScan, Nat.add_sub_cancel,
    getElem?_exclusiveScan 0 lens lens.length le_rfl]
  simp

theorem sum_take_succ (lens : List Nat) (u : Nat) (hu : u < lens.length) :
    (lens.take (u + 1)).sum = (lens.take u).sum + lens[u] := by
  rw [List.take_succ_eq_append_getElem hu, List.sum_append, List.sum_singleton]

theorem sum_take_mono (lens : List Nat) {u v : Nat} (h : u ≤ v) :
    (lens.take u).sum ≤ (lens.take v).sum := by
  rw [← Nat.add_sub_cancel' h, List.take_add, List.sum_append]
  exact Nat.le_add_right _ _

/-! ### Blocks -/

/-- The offset of block `u` in the concatenation of the blocks. -/
def start (blocks : List (List α)) (u : Nat) : Nat := ((blocks.map List.length).take u).sum

theorem start_eq (blocks : List (List α)) (u : Nat) : start blocks u = (blocks.take u).flatten.length := by
  rw [start, List.length_flatten, List.map_take]

theorem start_succ (blocks : List (List α)) (u : Nat) (hu : u < blocks.length) :
    start blocks (u + 1) = start blocks u + blocks[u].length := by
  rw [start, sum_take_succ _ u (by simpa using hu), List.getElem_map]
  rfl

theorem start_length (blocks : List (List α)) : start blocks blocks.length = blocks.flatten.length := by
  rw [start_eq, List.take_length]

theorem flatten_singletons (f : Nat → α) (n : Nat) :
    ((List.range n).map fun u => [f u]).flatten = (List.range n).map f := by
  rw [← List.flatMap_def, ← List.map_eq_flatMap]

theorem start_singletons (f : Nat → α) {u n : Nat} (hu : u ≤ n) :
    start ((List.range n).map fun u => [f u]) u = u := by
  rw [start, List.map_map]
  simp [Function.comp_def, hu]

theorem start_mono (blocks : List (List α)) {u v : Nat} (h : u ≤ v) : start blocks u ≤ start blocks v :=
  sum_take_mono _ h

theorem start_add_length_le (blocks : List (List α)) (u : Nat) (hu : u < blocks.length) :
    start blocks u + blocks[u].length ≤ blocks.flatten.length := by
  rw [← start_succ blocks u hu, ← start_length]
  exact start_mono blocks hu

theorem slice_flatten (blocks : List (List α)) (u : Nat) (hu : u < blocks.length) :
    slice blocks.flatten (start blocks u) blocks[u].length = blocks[u] := by
  have hsplit : blocks.flatten = (blocks.take u).flatten ++ blocks[u] ++ (blocks.drop (u + 1)).flatten := by
    conv_lhs => rw [← List.take_append_drop u blocks, List.flatten_append]
    rw [List.drop_eq_getElem_cons hu, List.flatten_cons, List.append_assoc]
  rw [start_eq, hsplit]
  exact slice_append_left _ _ _

theorem getElem?_flatten (blocks : List (List α)) (u j : Nat) (hu : u < blocks.length)
    (hj : j < blocks[u].length) : blocks.flatten[start blocks u + j]? = some blocks[u][j] := by
  have h := getElem?_slice blocks.flatten (start blocks u) blocks[u].length j
  rw [slice_flatten blocks u hu, if_pos hj, List.getElem?_eq_getElem hj] at h
  exact h.symm

theorem start_add_ne (blocks : List (List α)) {u v j k : Nat} (hu : u < blocks.length)
    (hv : v < blocks.length) (hj : j < blocks[u].length) (hk : k < blocks[v].length) (huv : u ≠ v) :
    start blocks u + j ≠ start blocks v + k := by
  have key : ∀ {a b : Nat} (ha : a < blocks.length) {i : Nat}, i < blocks[a].length → a < b →
      start blocks a + i < start blocks b := by
    intro a b ha i hi hab
    have h1 := start_succ blocks a ha
    have h2 := start_mono blocks (show a + 1 ≤ b by omega)
    omega
  rcases Nat.lt_or_gt_of_ne huv with h | h
  · have := key hu hj h
    omega
  · have := key hv hk h
    omega

theorem exists_block (blocks : List (List α)) (p : Nat) (hp : p < blocks.flatten.length) :
    ∃ (u : Nat) (hu : u < blocks.length) (j : Nat), j < blocks[u].length ∧ p = start blocks u + j := by
  induction blocks generalizing p with
  | nil => simp at hp
  | cons b blocks ih =>
      by_cases hb : p < b.length
      · exact ⟨0, by simp, p, hb, by simp [start]⟩
      · rw [List.flatten_cons, List.length_append] at hp
        obtain ⟨u, hu, j, hj, heq⟩ := ih (p - b.length) (by omega)
        refine ⟨u + 1, by simpa using hu, j, by simpa using hj, ?_⟩
        simp only [start, List.map_cons, List.take_succ_cons, List.sum_cons] at heq ⊢
        omega

theorem start_flatten (blocks : List (List (List α))) {u L : Nat} (hu : u < blocks.length)
    (hL : L ≤ blocks[u].length) :
    start blocks.flatten (start blocks u + L) = start (blocks.map List.flatten) u + start blocks[u] L := by
  have htake : blocks.flatten.take (start blocks u + L) = (blocks.take u).flatten ++ blocks[u].take L := by
    have hsplit : blocks.flatten = (blocks.take u).flatten ++ (blocks[u] :: blocks.drop (u + 1)).flatten := by
      rw [← List.drop_eq_getElem_cons hu, ← List.flatten_append, List.take_append_drop]
    rw [start_eq, hsplit, List.take_length_add_append, List.flatten_cons, List.take_append_of_le_length hL]
  rw [start_eq, htake, start_eq, start_eq, List.flatten_append, List.length_append, ← List.map_take,
    List.flatten_flatten]

/-- Splicing a block in puts the right values into its cells and leaves right values alone. -/
theorem splice_block_right (blocks : List (List α)) (u : Nat) (hu : u < blocks.length) (arena : List α)
    (hlen : arena.length = blocks.flatten.length) (p : Nat)
    (hp : arena[p]? = blocks.flatten[p]? ∨ ∃ j < blocks[u].length, p = start blocks u + j) :
    (splice arena (start blocks u) blocks[u])[p]? = blocks.flatten[p]? := by
  have hend : start blocks u + blocks[u].length ≤ arena.length := by
    rw [hlen]
    exact start_add_length_le blocks u hu
  rw [getElem?_splice hend]
  split_ifs with hin
  · have hj : p - start blocks u < blocks[u].length := by omega
    have h := getElem?_flatten blocks u _ hu hj
    rw [Nat.add_sub_cancel' hin.1] at h
    rw [h, List.getElem?_eq_getElem hj]
  · rcases hp with hp | ⟨j, hj, rfl⟩
    · exact hp
    · omega

theorem getD_block (blocks : List (List α)) {u : Nat} (hu : u < blocks.length) {arena : List α}
    (hlen : arena.length = blocks.flatten.length) :
    blocks.getD u [] = blocks[u] ∧ start blocks u + blocks[u].length ≤ arena.length := by
  refine ⟨List.getD_eq_getElem _ _ hu, ?_⟩
  rw [hlen]
  exact start_add_length_le blocks u hu

theorem foldl_splice_right (blocks : List (List α)) (order : List Nat) (hin : ∀ u ∈ order, u < blocks.length)
    (arena : List α) (hlen : arena.length = blocks.flatten.length) (p : Nat)
    (hp : arena[p]? = blocks.flatten[p]? ∨
      ∃ u ∈ order, ∃ (hu : u < blocks.length), ∃ j < blocks[u].length, p = start blocks u + j) :
    (order.foldl (fun cells u => splice cells (start blocks u) (blocks.getD u [])) arena)[p]? =
      blocks.flatten[p]? := by
  induction order generalizing arena with
  | nil => simpa using hp
  | cons u order ih =>
      have hu : u < blocks.length := hin u (by simp)
      obtain ⟨hget, hend⟩ := getD_block blocks hu hlen
      rw [List.foldl_cons, hget]
      refine ih (fun v hv => hin v (List.mem_cons_of_mem _ hv)) _ (by rw [length_splice hend, hlen]) ?_
      rcases hp with hp | ⟨v, hv, hvlt, j, hj, rfl⟩
      · exact Or.inl (splice_block_right blocks u hu arena hlen p (Or.inl hp))
      · rcases List.mem_cons.mp hv with rfl | hv
        · exact Or.inl (splice_block_right blocks v hu arena hlen _ (Or.inr ⟨j, hj, rfl⟩))
        · exact Or.inr ⟨v, hv, hvlt, j, hj, rfl⟩

theorem length_foldl_splice (blocks : List (List α)) (order : List Nat)
    (hin : ∀ u ∈ order, u < blocks.length) (arena : List α) (hlen : arena.length = blocks.flatten.length) :
    (order.foldl (fun cells u => splice cells (start blocks u) (blocks.getD u [])) arena).length =
      blocks.flatten.length := by
  induction order generalizing arena with
  | nil => exact hlen
  | cons u order ih =>
      have hu : u < blocks.length := hin u (by simp)
      obtain ⟨hget, hend⟩ := getD_block blocks hu hlen
      rw [List.foldl_cons, hget]
      exact ih (fun v hv => hin v (List.mem_cons_of_mem _ hv)) _ (by rw [length_splice hend, hlen])

theorem foldl_splice_eq (blocks : List (List α)) (order : List Nat)
    (horder : order.Perm (List.range blocks.length)) (arena : List α)
    (hlen : arena.length = blocks.flatten.length) :
    order.foldl (fun cells u => splice cells (start blocks u) (blocks.getD u [])) arena = blocks.flatten := by
  have hin : ∀ u ∈ order, u < blocks.length := fun u hu => List.mem_range.mp (horder.mem_iff.mp hu)
  apply List.ext_getElem?
  intro p
  by_cases hp : p < blocks.flatten.length
  · obtain ⟨u, hu, j, hj, rfl⟩ := exists_block blocks p hp
    exact foldl_splice_right blocks order hin arena hlen _
      (Or.inr ⟨u, horder.mem_iff.mpr (List.mem_range.mpr hu), hu, j, hj, rfl⟩)
  · have hlength := length_foldl_splice blocks order hin arena hlen
    rw [List.getElem?_eq_none (Nat.le_of_not_lt (hlength ▸ hp)), List.getElem?_eq_none (Nat.le_of_not_lt hp)]

/-! ### Writing cells -/

/-- Perform the writes `(address, value)` in order. -/
def writeAll (arena : List α) (writes : List (Nat × α)) : List α :=
  writes.foldl (fun cells w => cells.set w.1 w.2) arena

@[simp] theorem length_writeAll (arena : List α) (writes : List (Nat × α)) :
    (writeAll arena writes).length = arena.length := by
  induction writes generalizing arena with
  | nil => rfl
  | cons w writes ih => simpa [writeAll] using ih (arena.set w.1 w.2)

theorem writeAll_append (arena : List α) (writes writes' : List (Nat × α)) :
    writeAll arena (writes ++ writes') = writeAll (writeAll arena writes) writes' := by
  rw [writeAll, List.foldl_append]
  rfl

theorem getElem?_writeAll_of_notMem (arena : List α) (writes : List (Nat × α)) (p : Nat)
    (h : p ∉ writes.map Prod.fst) : (writeAll arena writes)[p]? = arena[p]? := by
  induction writes generalizing arena with
  | nil => rfl
  | cons w writes ih =>
      simp only [List.map_cons, List.mem_cons, not_or] at h
      have := ih (arena.set w.1 w.2) h.2
      rw [List.getElem?_set_ne (Ne.symm h.1)] at this
      exact this

theorem getElem?_writeAll_of_mem (arena : List α) (writes : List (Nat × α))
    (hnodup : (writes.map Prod.fst).Nodup) (p : Nat) (x : α) (hp : p < arena.length)
    (h : (p, x) ∈ writes) : (writeAll arena writes)[p]? = some x := by
  induction writes generalizing arena with
  | nil => simp at h
  | cons w writes ih =>
      obtain ⟨hw, hrest⟩ := List.nodup_cons.mp hnodup
      rcases List.mem_cons.mp h with rfl | h
      · have := getElem?_writeAll_of_notMem (arena.set p x) writes p hw
        rw [List.getElem?_set_self hp] at this
        exact this
      · exact ih (arena.set w.1 w.2) hrest (by simpa using hp) h

/-- Writes to pairwise distinct cells may land in any order. -/
theorem writeAll_perm (arena : List α) {writes writes' : List (Nat × α)} (hperm : writes'.Perm writes)
    (hnodup : (writes.map Prod.fst).Nodup) : writeAll arena writes' = writeAll arena writes := by
  have hnodup' : (writes'.map Prod.fst).Nodup := (hperm.map Prod.fst).nodup_iff.mpr hnodup
  apply List.ext_getElem?
  intro p
  by_cases hp : p < arena.length
  · by_cases hmem : p ∈ writes.map Prod.fst
    · obtain ⟨⟨q, x⟩, hx, rfl⟩ := List.mem_map.mp hmem
      rw [getElem?_writeAll_of_mem arena writes hnodup q x hp hx,
        getElem?_writeAll_of_mem arena writes' hnodup' q x hp (hperm.mem_iff.mpr hx)]
    · have hmem' : p ∉ writes'.map Prod.fst := fun h => hmem ((hperm.map Prod.fst).mem_iff.mp h)
      rw [getElem?_writeAll_of_notMem arena writes p hmem,
        getElem?_writeAll_of_notMem arena writes' p hmem']
  · rw [List.getElem?_eq_none (by simpa using hp), List.getElem?_eq_none (by simpa using hp)]

theorem writeAll_eq (arena target : List α) (writes : List (Nat × α)) (hlen : arena.length = target.length)
    (haddr : (writes.map Prod.fst).Perm (List.range target.length))
    (hval : ∀ w ∈ writes, target[w.1]? = some w.2) : writeAll arena writes = target := by
  have hnodup : (writes.map Prod.fst).Nodup := haddr.nodup_iff.mpr List.nodup_range
  apply List.ext_getElem?
  intro p
  by_cases hp : p < target.length
  · obtain ⟨⟨q, x⟩, hx, rfl⟩ := List.mem_map.mp (haddr.mem_iff.mpr (List.mem_range.mpr hp))
    rw [getElem?_writeAll_of_mem arena writes hnodup q x (by omega) hx, hval _ hx]
  · rw [List.getElem?_eq_none (by simp; omega), List.getElem?_eq_none (by omega)]

theorem writeAll_congr {arena arena' : List α} {writes : List (Nat × α)} (hlen : arena'.length = arena.length)
    (haddr : (writes.map Prod.fst).Perm (List.range arena.length)) :
    writeAll arena' writes = writeAll arena writes := by
  have hnodup : (writes.map Prod.fst).Nodup := haddr.nodup_iff.mpr List.nodup_range
  refine writeAll_eq _ _ _ (by simpa using hlen) (by simpa using haddr) fun w hw => ?_
  have hlt : w.1 < arena.length := List.mem_range.mp (haddr.mem_iff.mp (List.mem_map_of_mem hw))
  exact getElem?_writeAll_of_mem arena writes hnodup w.1 w.2 hlt hw

theorem perm_writeAll {arena : List α} {writes : List (Nat × α)} (d : α)
    (haddr : (writes.map Prod.fst).Perm (List.range arena.length)) :
    writes.Perm ((List.range arena.length).map fun p => (p, (writeAll arena writes).getD p d)) := by
  have hnodup : (writes.map Prod.fst).Nodup := haddr.nodup_iff.mpr List.nodup_range
  have hself : ∀ w ∈ writes, (w.1, (writeAll arena writes).getD w.1 d) = w := by
    intro w hw
    have hlt : w.1 < arena.length := List.mem_range.mp (haddr.mem_iff.mp (List.mem_map_of_mem hw))
    have hget := getElem?_writeAll_of_mem arena writes hnodup w.1 w.2 hlt hw
    simp [List.getD_eq_getElem?_getD, hget]
  have hmap : (writes.map Prod.fst).map (fun p => (p, (writeAll arena writes).getD p d)) = writes := by
    rw [List.map_map]
    exact (List.map_congr_left hself).trans (List.map_id writes)
  have h := haddr.map fun p => (p, (writeAll arena writes).getD p d)
  rwa [hmap] at h

/-! ### Loops over a whole array -/

/-- `for i < n: xs[i] = f i`. -/
def fill (f : Nat → α) (n : Nat) (xs : List α) : List α :=
  (List.range n).foldl (fun cells i => cells.set i (f i)) xs

theorem fill_eq_writeAll (f : Nat → α) (n : Nat) (xs : List α) :
    fill f n xs = writeAll xs ((List.range n).map fun i => (i, f i)) := by
  rw [fill, writeAll, List.foldl_map]

@[simp] theorem length_fill (f : Nat → α) (n : Nat) (xs : List α) : (fill f n xs).length = xs.length := by
  rw [fill_eq_writeAll, length_writeAll]

theorem fill_eq (f : Nat → α) {n : Nat} {xs : List α} (h : xs.length = n) :
    fill f n xs = (List.range n).map f := by
  rw [fill_eq_writeAll]
  refine writeAll_eq _ _ _ (by simpa using h) ?_ ?_
  · simp [List.map_map, Function.comp_def]
  · intro w hw
    obtain ⟨i, hi, rfl⟩ := List.mem_map.mp hw
    simp [List.mem_range.mp hi]

theorem getD_set_self {xs : List α} {i : Nat} (hi : i < xs.length) (x d : α) : (xs.set i x).getD i d = x := by
  simp [List.getD_eq_getElem?_getD, hi]

theorem getD_set_ne (xs : List α) {i j : Nat} (hij : i ≠ j) (x d : α) :
    (xs.set i x).getD j d = xs.getD j d := by
  simp [List.getD_eq_getElem?_getD, hij]

/-- `std::vector::resize`: cut off at `n`, or pad with `x`. -/
def resize (n : Nat) (x : α) (xs : List α) : List α := xs.take n ++ List.replicate (n - xs.length) x

@[simp] theorem length_resize (n : Nat) (x : α) (xs : List α) : (resize n x xs).length = n := by
  simp only [resize, List.length_append, List.length_take, List.length_replicate]
  omega

end Tea.Layout
