import Tea.Lib.Layout
/-!
# Regions of an arena

A region is a range of cells. `Tiles lo rs hi` says that the regions `rs` lie one behind the other from cell `lo` to
cell `hi`; regions that tile an arena from its first to its last cell are disjoint, inside the arena and leave no cell
out (`Tiles.fills`). Blocks written into tiling regions are one block written in one piece (`writeRegions_tiles`).
-/

namespace Tea.Layout

/-- The cells `[off, off + len)`. -/
structure Region where
  off : Nat
  len : Nat
deriving Repr, DecidableEq

namespace Region

def Has (r : Region) (p : Nat) : Prop := r.off ≤ p ∧ p < r.off + r.len

def Disjoint (r s : Region) : Prop := ∀ p, r.Has p → ¬ s.Has p

end Region

/-- The regions are pairwise disjoint, lie inside an arena of this size, and fill it. -/
structure Fills (rs : List Region) (size : Nat) : Prop where
  inside : ∀ r ∈ rs, r.off + r.len ≤ size
  disjoint : rs.Pairwise Region.Disjoint
  cover : ∀ p < size, ∃ r ∈ rs, r.Has p

/-- The regions lie one behind the other from `lo` to `hi`. -/
def Tiles : (lo : Nat) → List Region → (hi : Nat) → Prop
  | lo, [], hi => lo = hi
  | lo, r :: rs, hi => r.off = lo ∧ Tiles (lo + r.len) rs hi

namespace Tiles

variable {lo mid hi : Nat} {rs ss : List Region}

theorem append (h : Tiles lo rs mid) (h' : Tiles mid ss hi) : Tiles lo (rs ++ ss) hi := by
  induction rs generalizing lo with
  | nil =>
      obtain rfl : lo = mid := h
      exact h'
  | cons r rs ih => exact ⟨h.1, ih h.2⟩

theorem le (h : Tiles lo rs hi) : lo ≤ hi := by
  induction rs generalizing lo with
  | nil => exact le_of_eq h
  | cons r rs ih =>
      have := ih h.2
      omega

theorem inside (h : Tiles lo rs hi) : ∀ r ∈ rs, lo ≤ r.off ∧ r.off + r.len ≤ hi := by
  induction rs generalizing lo with
  | nil => simp
  | cons r rs ih =>
      obtain ⟨hoff, hrest⟩ := h
      have hle := hrest.le
      intro s hs
      rcases List.mem_cons.mp hs with rfl | hs
      · omega
      · have := ih hrest s hs
        omega

theorem disjoint (h : Tiles lo rs hi) : rs.Pairwise Region.Disjoint := by
  induction rs generalizing lo with
  | nil => exact List.Pairwise.nil
  | cons r rs ih =>
      obtain ⟨hoff, hrest⟩ := h
      refine List.pairwise_cons.mpr ⟨fun s hs p hr hp => ?_, ih hrest⟩
      have := hrest.inside s hs
      unfold Region.Has at hr hp
      omega

theorem cover (h : Tiles lo rs hi) : ∀ p, lo ≤ p → p < hi → ∃ r ∈ rs, r.Has p := by
  induction rs generalizing lo with
  | nil =>
      obtain rfl : lo = hi := h
      omega
  | cons r rs ih =>
      obtain ⟨hoff, hrest⟩ := h
      intro p hlo hhi
      by_cases hp : p < lo + r.len
      · exact ⟨r, by simp, by omega, by omega⟩
      · obtain ⟨s, hs, hhas⟩ := ih hrest p (by omega) hhi
        exact ⟨s, List.mem_cons_of_mem _ hs, hhas⟩

theorem fills (h : Tiles 0 rs hi) : Fills rs hi where
  inside r hr := (h.inside r hr).2
  disjoint := h.disjoint
  cover p hp := h.cover p (Nat.zero_le p) hp

theorem flatMap_range {off : Nat → Nat} {regions : Nat → List Region} (n : Nat)
    (h : ∀ u < n, Tiles (off u) (regions u) (off (u + 1))) : Tiles (off 0) ((List.range n).flatMap regions) (off n) := by
  induction n with
  | zero => exact rfl
  | succ n ih =>
      rw [List.range_succ, List.flatMap_append, List.flatMap_singleton]
      exact (ih fun u hu => h u (by omega)).append (h n (by omega))

end Tiles

/-! ### Writing into regions -/

variable {α : Type}

/-- Write the blocks into their regions, in order. -/
def writeRegions (arena : List α) (ws : List (Region × List α)) : List α :=
  ws.foldl (fun cells w => splice cells w.1.off w.2) arena

theorem writeRegions_append (arena : List α) (ws ws' : List (Region × List α)) :
    writeRegions arena (ws ++ ws') = writeRegions (writeRegions arena ws) ws' := by
  rw [writeRegions, writeRegions, writeRegions, List.foldl_append]

theorem length_of_tiles {lo hi : Nat} {ws : List (Region × List α)} (h : Tiles lo (ws.map Prod.fst) hi)
    (hlen : ∀ w ∈ ws, w.2.length = w.1.len) : lo + (ws.map Prod.snd).flatten.length = hi := by
  induction ws generalizing lo with
  | nil => exact h
  | cons w ws ih =>
      have hw := hlen w (by simp)
      have hrest := ih h.2 fun v hv => hlen v (List.mem_cons_of_mem _ hv)
      rw [List.map_cons, List.flatten_cons, List.length_append, hw]
      omega

theorem writeRegions_tiles {lo hi : Nat} {ws : List (Region × List α)} (h : Tiles lo (ws.map Prod.fst) hi)
    (hlen : ∀ w ∈ ws, w.2.length = w.1.len) {arena : List α} (hhi : hi ≤ arena.length) :
    writeRegions arena ws = splice arena lo (ws.map Prod.snd).flatten := by
  induction ws generalizing lo arena with
  | nil => exact (splice_nil lo).symm
  | cons w ws ih =>
      obtain ⟨hoff, hrest⟩ := h
      have hw : w.2.length = w.1.len := hlen w (by simp)
      have hlen' : ∀ v ∈ ws, v.2.length = v.1.len := fun v hv => hlen v (List.mem_cons_of_mem _ hv)
      have hsize := length_of_tiles hrest hlen'
      have hfirst : lo + w.2.length ≤ arena.length := by omega
      have hrun : writeRegions (splice arena lo w.2) ws =
          splice (splice arena lo w.2) (lo + w.1.len) (ws.map Prod.snd).flatten :=
        ih hrest hlen' (by rw [length_splice hfirst]; exact hhi)
      rw [writeRegions, List.foldl_cons, hoff]
      refine hrun.trans ?_
      rw [List.map_cons, List.flatten_cons, ← hw]
      exact splice_splice (by omega)

/-- Groups of writes, each of which fills one block of an arena, leave the blocks in whatever order the groups are
performed. -/
theorem writeRegions_blocks (blocks : List (List α)) {writes : Nat → List (Region × List α)}
    (htiles : ∀ u < blocks.length, Tiles (start blocks u) ((writes u).map Prod.fst) (start blocks (u + 1)))
    (hlen : ∀ u < blocks.length, ∀ w ∈ writes u, w.2.length = w.1.len)
    (hblock : ∀ u < blocks.length, ((writes u).map Prod.snd).flatten = blocks.getD u [])
    {order : List Nat} (horder : order.Perm (List.range blocks.length)) {arena : List α}
    (harena : arena.length = blocks.flatten.length) : writeRegions arena (order.flatMap writes) = blocks.flatten := by
  have hin : ∀ u ∈ order, u < blocks.length := fun u hu => List.mem_range.mp (horder.mem_iff.mp hu)
  rw [← foldl_splice_eq blocks order horder arena harena]
  clear horder
  induction order generalizing arena with
  | nil => rfl
  | cons u order ih =>
      have hu : u < blocks.length := hin u (by simp)
      obtain ⟨hget, hend⟩ := getD_block blocks hu harena
      have hstep : writeRegions arena (writes u) = splice arena (start blocks u) blocks[u] := by
        rw [writeRegions_tiles (htiles u hu) (hlen u hu) (by rwa [start_succ blocks u hu]), hblock u hu, hget]
      have hrest : writeRegions (writeRegions arena (writes u)) (order.flatMap writes) =
          writeRegions arena ((u :: order).flatMap writes) := by
        rw [List.flatMap_cons, writeRegions_append]
      rw [← hrest, hstep, List.foldl_cons, hget]
      exact ih (by rw [length_splice hend, harena]) fun v hv => hin v (List.mem_cons_of_mem _ hv)

/-- The writes `ws` fill the block `b` of an arena at `off`. -/
structure FillsBlock (off : Nat) (ws : List (Region × List α)) (b : List α) : Prop where
  tiles : Tiles off (ws.map Prod.fst) (off + b.length)
  lengths : ∀ w ∈ ws, w.2.length = w.1.len
  contents : (ws.map Prod.snd).flatten = b

namespace FillsBlock

theorem nil (off : Nat) : FillsBlock off ([] : List (Region × List α)) [] := ⟨rfl, by simp, rfl⟩

theorem single (off : Nat) (b : List α) : FillsBlock off [(⟨off, b.length⟩, b)] b := ⟨⟨rfl, rfl⟩, by simp, by simp⟩

end FillsBlock

theorem fills_of_blocks (n : Nat) (block : Nat → List α) {writes : Nat → List (Region × List α)}
    (h : ∀ u < n, FillsBlock (start ((List.range n).map block) u) (writes u) (block u)) :
    Fills ((List.range n).flatMap fun u => (writes u).map Prod.fst) ((List.range n).map block).flatten.length ∧
      ∀ order : List Nat, order.Perm (List.range n) → ∀ arena : List α,
        arena.length = ((List.range n).map block).flatten.length →
          writeRegions arena (order.flatMap writes) = ((List.range n).map block).flatten := by
  set blocks := (List.range n).map block with hblocks
  have hlen : blocks.length = n := by simp [hblocks]
  have hget : ∀ u, (hu : u < blocks.length) → blocks[u] = block u := by simp [hblocks]
  have htiles : ∀ u < n, Tiles (start blocks u) ((writes u).map Prod.fst) (start blocks (u + 1)) := by
    intro u hu
    have hu' : u < blocks.length := by rwa [hlen]
    rw [start_succ blocks u hu', hget u hu']
    exact (h u hu).tiles
  refine ⟨?_, fun order horder arena harena => ?_⟩
  · rw [← start_length, hlen]
    exact (Tiles.flatMap_range n htiles).fills
  · refine writeRegions_blocks blocks (fun u hu => htiles u (hlen ▸ hu)) (fun u hu => (h u (hlen ▸ hu)).lengths)
      (fun u hu => ?_) (by rwa [hlen]) harena
    rw [List.getD_eq_getElem _ _ hu, hget u hu]
    exact (h u (hlen ▸ hu)).contents

end Tea.Layout
