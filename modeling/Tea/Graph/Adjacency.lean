import Tea.Graph.Build
/-!
# The build computes the sorted adjacency lists

The abstract temporal graph is a list of adjacency lists, one per vertex, each a list of `(ts, target)`
entries. `ofAdj` stores such lists the way `TemporalGraph` does, and the accessors of the stored graph read the
lists back. `build_eq_ofAdj` is the refinement: the parallel build stores, for every vertex, the sorted list of
the entries in the order in which the schedule captured them.

Every capture takes the cell `offsets[v] + cursor[v]`, and the cursor of `v` counts the captures of `v` so far;
so the `j`-th capture of `v` lands in cell `j` of the block of `v`, and no two captures share a cell
(`scatterWrites_spec`).
-/

namespace Tea

open Layout Search

/-- One entry of an adjacency list: timestamp and target. -/
abbrev Entry := Int × Int

theorem zip_entries (es : List Entry) : (es.map Prod.fst).zip (es.map Prod.snd) = es :=
  (List.zip_of_prod rfl rfl).symm

namespace TemporalGraph

/-- The stored form of adjacency lists. -/
def ofAdj (adj : List (List Entry)) : TemporalGraph where
  n := adj.length
  offsets := exclusiveScan 0 (adj.map List.length)
  targets := adj.flatten.map Prod.snd
  timestamps := adj.flatten.map Prod.fst

section accessors

variable (adj : List (List Entry)) {u : Nat}

@[simp] theorem numVertices_ofAdj : (ofAdj adj).numVertices = adj.length := rfl

theorem offsetOf_ofAdj (hu : u ≤ adj.length) : (ofAdj adj).offsetOf u = start adj u :=
  getD_exclusiveScan _ u (by simpa using hu)

theorem degree_ofAdj (hu : u < adj.length) : (ofAdj adj).degree u = adj[u].length := by
  have h := start_succ adj u hu
  have h0 := offsetOf_ofAdj adj (le_of_lt hu)
  have h1 := offsetOf_ofAdj adj (Nat.succ_le_of_lt hu)
  simp only [offsetOf] at h0 h1
  rw [degree, h0, h1, h]
  omega

theorem numEdges_ofAdj : (ofAdj adj).numEdges = adj.flatten.length := by
  have h : (ofAdj adj).offsets.getLastD 0 = (ofAdj adj).offsets.getD adj.length 0 := by
    simp [ofAdj, List.getLastD_eq_getLast?, List.getLast?_eq_getElem?]
  rw [numEdges, h]
  exact (offsetOf_ofAdj adj le_rfl).trans (start_length adj)

theorem targetsOf_ofAdj (hu : u < adj.length) : (ofAdj adj).targetsOf u = adj[u].map Prod.snd := by
  rw [targetsOf, offsetOf_ofAdj adj hu.le, degree_ofAdj adj hu]
  show slice (adj.flatten.map Prod.snd) _ _ = _
  rw [← map_slice, slice_flatten adj u hu]

theorem timestampsOf_ofAdj (hu : u < adj.length) :
    (ofAdj adj).timestampsOf u = adj[u].map Prod.fst := by
  rw [timestampsOf, offsetOf_ofAdj adj hu.le, degree_ofAdj adj hu]
  show slice (adj.flatten.map Prod.fst) _ _ = _
  rw [← map_slice, slice_flatten adj u hu]

theorem candidateSetLen_ofAdj (hu : u < adj.length) (hsorted : (adj[u].map Prod.fst).Pairwise (· ≤ ·))
    (tPrev : Int) : (ofAdj adj).candidateSetLen u tPrev = adj[u].countP fun e => e.1 < tPrev := by
  rw [candidateSetLen, timestampsOf_ofAdj adj hu, lowerBound_sorted hsorted, List.countP_map]
  rfl

theorem ofAdj_injective {adj adj' : List (List Entry)} (h : ofAdj adj = ofAdj adj') : adj = adj' := by
  have hlen : adj.length = adj'.length := congrArg TemporalGraph.n h
  apply List.ext_getElem hlen
  intro u hu hu'
  have hts := congrArg (fun g => g.timestampsOf u) h
  have htg := congrArg (fun g => g.targetsOf u) h
  simp only [timestampsOf_ofAdj _ hu, timestampsOf_ofAdj _ hu', targetsOf_ofAdj _ hu,
    targetsOf_ofAdj _ hu'] at hts htg
  have hzip := congrArg₂ List.zip hts htg
  rwa [zip_entries, zip_entries] at hzip

end accessors

end TemporalGraph

/-! ### Degrees -/

/-- The captures of vertex `v`, in order. -/
def capturesAt (cs : List Capture) (v : Nat) : List Capture := cs.filter fun c => c.vertex = v

@[simp] theorem capturesAt_append (cs cs' : List Capture) (v : Nat) :
    capturesAt (cs ++ cs') v = capturesAt cs v ++ capturesAt cs' v := List.filter_append ..

theorem capturesAt_cons_of_vertex {c : Capture} {v : Nat} (hv : c.vertex = v) (cs : List Capture) :
    capturesAt (c :: cs) v = c :: capturesAt cs v := by
  simp [capturesAt, hv]

theorem length_capturesAt_concat (cs : List Capture) (c : Capture) (x : Nat) : (capturesAt (cs ++ [c]) x).length =
    if c.vertex = x then (capturesAt cs x).length + 1 else (capturesAt cs x).length := by
  rw [capturesAt_append, List.length_append, capturesAt, capturesAt, List.filter_singleton]
  by_cases hx : c.vertex = x <;> simp [hx]

/-- All captures are at vertices below `n`. -/
def CapturesIn (n : Nat) (cs : List Capture) : Prop := ∀ c ∈ cs, 0 ≤ c.vertex ∧ c.vertex < n

/-- The captures, one block for each vertex. -/
def captureBlocks (n : Nat) (cs : List Capture) : List (List Capture) :=
  (List.range n).map (capturesAt cs)

@[simp] theorem length_captureBlocks (n : Nat) (cs : List Capture) : (captureBlocks n cs).length = n := by
  simp [captureBlocks]

@[simp] theorem getElem_captureBlocks (n : Nat) (cs : List Capture) (v : Nat)
    (hv : v < (captureBlocks n cs).length) : (captureBlocks n cs)[v] = capturesAt cs v := by
  simp [captureBlocks]

theorem countDegrees_eq (n : Nat) (bumps : List Int) (hin : ∀ b ∈ bumps, 0 ≤ b ∧ b < n) :
    countDegrees n bumps = (List.range n).map fun v : Nat => bumps.countP fun b => b = (v : Int) := by
  induction bumps using List.reverseRecOn with
  | nil =>
      apply List.ext_getElem
      · simp [countDegrees]
      · intro v h1 h2
        simp [countDegrees]
  | append_singleton bumps b ih =>
      obtain ⟨hb0, hbn⟩ := hin b (by simp)
      rw [countDegrees, List.foldl_append] at *
      rw [ih fun c hc => hin c (by simp [hc])]
      apply List.ext_getElem
      · simp
      · intro v h1 h2
        have hvb : b.toNat = v ↔ b = (v : Int) := by omega
        simp only [List.foldl_cons, List.foldl_nil, List.getElem_modify, List.getElem_map,
          List.getElem_range, List.countP_append, List.countP_singleton, decide_eq_true_eq, hvb]
        split_ifs <;> rfl

theorem increments_perm (isDirected : Bool) (e : Edge) :
    (increments isDirected e).Perm ((captures isDirected e).map Capture.vertex) := by
  cases isDirected
  · exact List.Perm.swap _ _ _
  · exact List.Perm.refl _

section build

variable {edges : List Edge} {isDirected : Bool} {n : Nat}

theorem captures_in (hin : EndpointsIn edges n) : CapturesIn n (edges.flatMap (captures isDirected)) := by
  intro c hc
  obtain ⟨e, he, hc⟩ := List.mem_flatMap.mp hc
  obtain ⟨hu, hv⟩ := hin e he
  cases isDirected
  · rcases List.mem_cons.mp hc with rfl | hc
    · exact hv
    · rw [List.mem_singleton.mp hc]
      exact hu
  · rw [List.mem_singleton.mp hc]
    exact hv

theorem Schedule.captured_in (σ : Schedule edges isDirected) (hin : EndpointsIn edges n) :
    CapturesIn n σ.captured :=
  fun c hc => captures_in hin c (σ.captured_perm.mem_iff.mp hc)

theorem Schedule.incremented_perm_captured (σ : Schedule edges isDirected) :
    σ.incremented.Perm (σ.captured.map Capture.vertex) := by
  have hflat : (edges.flatMap (increments isDirected)).Perm
      ((edges.flatMap (captures isDirected)).map Capture.vertex) := by
    rw [List.map_flatMap]
    exact List.Perm.flatMap_left _ fun e _ => increments_perm isDirected e
  exact (σ.incremented_perm.trans hflat).trans (σ.captured_perm.symm.map _)

theorem countDegrees_captures {bumps : List Int} {cs : List Capture} (hperm : bumps.Perm (cs.map Capture.vertex))
    (hin : CapturesIn n cs) : countDegrees n bumps = (captureBlocks n cs).map List.length := by
  rw [Tea.countDegrees_eq n _ fun b hb => ?_]
  · rw [captureBlocks, List.map_map]
    refine List.map_congr_left fun v _ => ?_
    rw [hperm.countP_eq, List.countP_map, Function.comp_apply, capturesAt, List.countP_eq_length_filter]
    rfl
  · obtain ⟨c, hc, rfl⟩ := List.mem_map.mp (hperm.mem_iff.mp hb)
    exact hin c hc

theorem Schedule.countDegrees_eq (σ : Schedule edges isDirected) (hin : EndpointsIn edges n) :
    countDegrees n σ.incremented = (captureBlocks n σ.captured).map List.length :=
  countDegrees_captures σ.incremented_perm_captured (σ.captured_in hin)

end build

/-! ### The scatter -/

section scatter

variable {n : Nat} {all : List Capture}

theorem capturesAt_split {done cs : List Capture} {c : Capture} {v : Nat} (hall : all = done ++ c :: cs)
    (hv : c.vertex = v) : capturesAt all v = capturesAt done v ++ c :: capturesAt cs v := by
  rw [hall, capturesAt_append, capturesAt_cons_of_vertex hv]

theorem cursor_step (done : List Capture) (c : Capture) (cs : List Capture) (hall : all = done ++ c :: cs)
    (hin : CapturesIn n all) (cursor : List Nat) (hlen : cursor.length = n)
    (hcursor : ∀ v, v < n → cursor.getD v 0 = (capturesAt done v).length) :
    ∃ v, v < n ∧ c.vertex = (v : Nat) ∧ ∀ x, x < n →
      (cursor.modify c.vertex.toNat (· + 1)).getD x 0 = (capturesAt (done ++ [c]) x).length := by
  obtain ⟨hc0, hcn⟩ := hin c (by simp [hall])
  obtain ⟨v, hv⟩ := Int.eq_ofNat_of_zero_le hc0
  refine ⟨v, by omega, hv, fun x hx => ?_⟩
  have hx' : x < cursor.length := by omega
  have hcx := hcursor x hx
  rw [List.getD_eq_getElem _ _ hx'] at hcx
  rw [List.getD_eq_getElem _ _ (by simpa using hx'), List.getElem_modify, hcx, length_capturesAt_concat, hv]
  by_cases hvx : v = x
  · simp [hvx]
  · simp [hvx]

/-- After the captures `done`, the remaining captures write the remaining cells of the blocks: a capture at
`v` writes its own record to a cell of block `v` at or behind the cursor. -/
theorem scatterWrites_spec (done cs : List Capture) (hall : all = done ++ cs) (hin : CapturesIn n all)
    (cursor : List Nat) (hlen : cursor.length = n)
    (hcursor : ∀ v, v < n → cursor.getD v 0 = (capturesAt done v).length) :
    ∀ w ∈ scatterWrites (exclusiveScan 0 ((captureBlocks n all).map List.length)) cursor cs,
      ∃ v j, v < n ∧ w.2.vertex = (v : Nat) ∧ w.1 = start (captureBlocks n all) v + j ∧
        cursor.getD v 0 ≤ j ∧ (capturesAt all v)[j]? = some w.2 := by
  induction cs generalizing done cursor with
  | nil => simp [scatterWrites]
  | cons c cs ih =>
      obtain ⟨v, hvn, hv, hstep⟩ := cursor_step done c cs hall hin cursor hlen hcursor
      have htoNat : c.vertex.toNat = v := by omega
      intro w hw
      rw [scatterWrites] at hw
      rcases List.mem_cons.mp hw with rfl | hw
      · refine ⟨v, cursor.getD v 0, hvn, hv, ?_, le_rfl, ?_⟩
        · rw [htoNat, getD_exclusiveScan _ v (by simpa using hvn.le)]
          rfl
        · rw [capturesAt_split hall hv, hcursor v hvn, List.getElem?_append_right le_rfl, Nat.sub_self]
          rfl
      · obtain ⟨x, j, hx, hwx, hw1, hj, hget⟩ :=
          ih (done ++ [c]) (by simp [hall]) _ (by simpa using hlen) hstep w hw
        refine ⟨x, j, hx, hwx, hw1, le_trans ?_ hj, hget⟩
        rw [hstep x hx, hcursor x hx, capturesAt_append, List.length_append]
        exact Nat.le_add_right _ _

theorem scatterWrites_nodup (done cs : List Capture) (hall : all = done ++ cs) (hin : CapturesIn n all)
    (cursor : List Nat) (hlen : cursor.length = n)
    (hcursor : ∀ v, v < n → cursor.getD v 0 = (capturesAt done v).length) :
    ((scatterWrites (exclusiveScan 0 ((captureBlocks n all).map List.length)) cursor cs).map
      Prod.fst).Nodup := by
  induction cs generalizing done cursor with
  | nil => simp [scatterWrites]
  | cons c cs ih =>
      obtain ⟨v, hvn, hv, hstep⟩ := cursor_step done c cs hall hin cursor hlen hcursor
      have hlen' : (cursor.modify c.vertex.toNat (· + 1)).length = n := by simpa using hlen
      rw [scatterWrites, List.map_cons, List.nodup_cons]
      refine ⟨fun hmem => ?_, ih (done ++ [c]) (by simp [hall]) _ hlen' hstep⟩
      obtain ⟨w, hw, hw1⟩ := List.mem_map.mp hmem
      obtain ⟨x, j, hx, -, hwx, hj, hget⟩ :=
        scatterWrites_spec (done ++ [c]) cs (by simp [hall]) hin _ hlen' hstep w hw
      obtain ⟨hjlt, -⟩ := List.getElem?_eq_some_iff.mp hget
      have hhead : (exclusiveScan 0 ((captureBlocks n all).map List.length)).getD v 0 =
          start (captureBlocks n all) v := getD_exclusiveScan _ v (by simpa using hvn.le)
      rw [show c.vertex.toNat = v by omega, hhead] at hw1
      by_cases hxv : x = v
      · -- a later capture of the same vertex lies behind the cursor
        subst hxv
        rw [hstep x hx] at hj
        rw [hcursor x hx] at hw1
        have hmore := length_capturesAt_concat done c x
        rw [if_pos hv] at hmore
        omega
      · have hk : cursor.getD v 0 < (capturesAt all v).length := by
          rw [capturesAt_split hall hv, hcursor v hvn]
          simp
        exact start_add_ne (captureBlocks n all) (by simpa using hx) (by simpa using hvn)
          (by simpa using hjlt) (by simpa using hk) hxv (hwx.symm.trans hw1)

theorem captureBlocks_perm (hin : CapturesIn n all) : (captureBlocks n all).flatten.Perm all := by
  have h := flatMap_range_filter_perm (fun c : Capture => c.vertex.toNat) all n
  have hself : all.filter (fun c => decide (c.vertex.toNat < n)) = all :=
    List.filter_eq_self.mpr fun c hc => by
      have := hin c hc
      simp only [decide_eq_true_eq]
      omega
  rw [hself] at h
  refine (List.Perm.of_eq ?_).trans h
  rw [captureBlocks, ← List.flatMap_def]
  refine List.flatMap_congr fun v _ => List.filter_congr fun c hc => ?_
  have := hin c hc
  rw [decide_eq_decide]
  omega

theorem length_scatterWrites (offsets cursor : List Nat) (cs : List Capture) :
    (scatterWrites offsets cursor cs).length = cs.length := by
  induction cs generalizing cursor with
  | nil => rfl
  | cons c cs ih => simp [scatterWrites, ih]

theorem cursor_zero : ∀ v, v < n → (List.replicate n 0).getD v 0 = (capturesAt [] v).length := by
  intro v hv
  simp [capturesAt, hv]

/-- The writes of the whole scatter loop. -/
def scatter (n : Nat) (all : List Capture) : List (Nat × Capture) :=
  scatterWrites (exclusiveScan 0 ((captureBlocks n all).map List.length)) (List.replicate n 0) all

theorem scatter_value (hin : CapturesIn n all) :
    ∀ w ∈ scatter n all, (captureBlocks n all).flatten[w.1]? = some w.2 := by
  intro w hw
  obtain ⟨v, j, hv, -, hw1, -, hget⟩ :=
    scatterWrites_spec [] all (List.nil_append all).symm hin _ (List.length_replicate ..) cursor_zero w hw
  obtain ⟨hj, hval⟩ := List.getElem?_eq_some_iff.mp hget
  rw [hw1, getElem?_flatten (captureBlocks n all) v j (by simpa using hv) (by simpa using hj)]
  simpa using hval

/-- The scatter writes every cell exactly once. -/
theorem scatter_addresses (hin : CapturesIn n all) :
    ((scatter n all).map Prod.fst).Perm (List.range (captureBlocks n all).flatten.length) := by
  have hnodup := scatterWrites_nodup [] all (List.nil_append all).symm hin _ (List.length_replicate ..)
    cursor_zero
  refine (List.subperm_of_subset hnodup fun p hp => ?_).perm_of_length_le ?_
  · obtain ⟨w, hw, rfl⟩ := List.mem_map.mp hp
    obtain ⟨hlt, -⟩ := List.getElem?_eq_some_iff.mp (scatter_value hin w hw)
    exact List.mem_range.mpr hlt
  · rw [List.length_map, length_scatterWrites, List.length_range, (captureBlocks_perm hin).length_eq]

theorem scatter_arena (hin : CapturesIn n all) (f : Capture → Int) (total : Nat)
    (htotal : total = (captureBlocks n all).flatten.length) :
    writeAll (List.replicate total 0) ((scatter n all).map fun w => (w.1, f w.2)) =
      (captureBlocks n all).flatten.map f := by
  apply writeAll_eq
  · rw [List.length_replicate, List.length_map, htotal]
  · rw [List.map_map, List.length_map]
    exact scatter_addresses hin
  · intro w hw
    obtain ⟨w', hw', rfl⟩ := List.mem_map.mp hw
    rw [List.getElem?_map, scatter_value hin w' hw']
    rfl

end scatter

/-! ### Sorting -/

/-- The entries that the captures of `v` store, in the order of the captures. -/
def arrivals (cs : List Capture) (v : Nat) : List Entry := (capturesAt cs v).map fun c => (c.ts, c.target)

/-- The sorted adjacency lists. -/
def adjacency (S : StdSort) (n : Nat) (cs : List Capture) : List (List Entry) :=
  (List.range n).map fun v => S.sort Prod.fst (arrivals cs v)

theorem map_length_adjacency (S : StdSort) (n : Nat) (cs : List Capture) :
    (adjacency S n cs).map List.length = (captureBlocks n cs).map List.length := by
  simp only [adjacency, captureBlocks, List.map_map]
  refine List.map_congr_left fun v _ => ?_
  simp [(S.sort_perm _ _).length_eq, arrivals]

theorem foldl_sortVertex (S : StdSort) (blocks : List (List Entry)) (k : Nat) (hk : k ≤ blocks.length) :
    (List.range k).foldl (sortVertex S (exclusiveScan 0 (blocks.map List.length)))
        (blocks.flatten.map Prod.fst, blocks.flatten.map Prod.snd) =
      (((blocks.take k).map (S.sort Prod.fst) ++ blocks.drop k).flatten.map Prod.fst,
        ((blocks.take k).map (S.sort Prod.fst) ++ blocks.drop k).flatten.map Prod.snd) := by
  induction k with
  | zero => simp
  | succ k ih =>
      have hk' : k < blocks.length := hk
      rw [List.range_succ, List.foldl_append, ih hk'.le, List.foldl_cons, List.foldl_nil]
      have hsort : (S.sort Prod.fst blocks[k]).length = blocks[k].length := (S.sort_perm _ _).length_eq
      have hpre : (((blocks.take k).map (S.sort Prod.fst)).flatten).length = start blocks k := by
        rw [start_eq, List.length_flatten, List.length_flatten, List.map_map]
        congr 1
        exact List.map_congr_left fun b _ => (S.sort_perm _ b).length_eq
      have hlo : (exclusiveScan 0 (blocks.map List.length)).getD k 0 = start blocks k :=
        getD_exclusiveScan _ k (by simpa using hk'.le)
      have hhi : (exclusiveScan 0 (blocks.map List.length)).getD (k + 1) 0 = start blocks k + blocks[k].length := by
        rw [getD_exclusiveScan _ (k + 1) (by simpa using hk), ← start_succ blocks k hk']
        rfl
      have hnew : ((blocks.take (k + 1)).map (S.sort Prod.fst) ++ blocks.drop (k + 1)).flatten =
          ((blocks.take k).map (S.sort Prod.fst)).flatten ++ S.sort Prod.fst blocks[k] ++
            (blocks.drop (k + 1)).flatten := by
        rw [List.take_succ_eq_append_getElem hk', List.map_append, List.flatten_append, List.flatten_append]
        simp
      have hold : ((blocks.take k).map (S.sort Prod.fst) ++ blocks.drop k).flatten =
          ((blocks.take k).map (S.sort Prod.fst)).flatten ++ blocks[k] ++ (blocks.drop (k + 1)).flatten := by
        rw [List.flatten_append, List.drop_eq_getElem_cons hk', List.flatten_cons, List.append_assoc]
      have hslice : ∀ f : Entry → Int,
          slice (((blocks.take k).map (S.sort Prod.fst) ++ blocks.drop k).flatten.map f)
            (start blocks k) blocks[k].length = blocks[k].map f := by
        intro f
        rw [hold, ← hpre, ← map_slice, slice_append_left]
      have hsplice : ∀ f : Entry → Int,
          splice (((blocks.take k).map (S.sort Prod.fst) ++ blocks.drop k).flatten.map f)
            (start blocks k) ((S.sort Prod.fst blocks[k]).map f) =
          ((blocks.take (k + 1)).map (S.sort Prod.fst) ++ blocks.drop (k + 1)).flatten.map f := by
        intro f
        rw [hold, hnew, ← hpre, List.map_append, List.map_append, List.map_append, List.map_append]
        have := splice_append (((blocks.take k).map (S.sort Prod.fst)).flatten.map f) (blocks[k].map f)
          ((blocks.drop (k + 1)).flatten.map f) ((S.sort Prod.fst blocks[k]).map f) (by simp [hsort])
        rwa [List.length_map] at this
      rw [sortVertex, hlo, hhi]
      dsimp only
      rw [Nat.add_sub_cancel_left, hslice, hslice, zip_entries, hsplice, hsplice]
      split_ifs with hd
      · rw [hold, hnew, S.sort_of_length_le_one _ _ hd]
      · rfl

/-! ### The build -/

section build

variable {edges : List Edge} {isDirected : Bool}

theorem map_captureBlocks (n : Nat) (cs : List Capture) :
    (captureBlocks n cs).map (List.map fun c => (c.ts, c.target)) = (List.range n).map (arrivals cs) := by
  rw [captureBlocks, List.map_map]
  rfl

/-- **The build stores the sorted adjacency lists of the captures.** -/
theorem TemporalGraph.build_eq_ofAdj (S : StdSort) (self : TemporalGraph) (numVertices : Int)
    (σ : Schedule edges isDirected) (hin : EndpointsIn edges (vertexCount edges numVertices)) :
    TemporalGraph.build S self edges numVertices isDirected σ =
      ofAdj (adjacency S (vertexCount edges numVertices) σ.captured) := by
  have hcap := σ.captured_in hin
  have hdeg := σ.countDegrees_eq hin
  rw [build]
  generalize vertexCount edges numVertices = n at hcap hdeg
  split_ifs with hn
  · subst hn
    rfl
  · have htotal : ((captureBlocks n σ.captured).map List.length).sum =
        (captureBlocks n σ.captured).flatten.length := List.length_flatten.symm
    have htg := scatter_arena hcap Capture.target _ htotal
    have hts := scatter_arena hcap Capture.ts _ htotal
    have hsorted := foldl_sortVertex S ((List.range n).map (arrivals σ.captured)) n (by simp)
    have hlens : ((List.range n).map (arrivals σ.captured)).map List.length =
        (captureBlocks n σ.captured).map List.length := by
      rw [← map_captureBlocks, List.map_map]
      exact List.map_congr_left fun b _ => List.length_map _
    have hfst : ((List.range n).map (arrivals σ.captured)).flatten.map Prod.fst =
        (captureBlocks n σ.captured).flatten.map Capture.ts := by
      rw [← map_captureBlocks, ← List.map_flatten, List.map_map]
      rfl
    have hsnd : ((List.range n).map (arrivals σ.captured)).flatten.map Prod.snd =
        (captureBlocks n σ.captured).flatten.map Capture.target := by
      rw [← map_captureBlocks, ← List.map_flatten, List.map_map]
      rfl
    have hadj : ((List.range n).map (arrivals σ.captured)).map (S.sort Prod.fst) =
        adjacency S n σ.captured := by
      rw [List.map_map]
      rfl
    rw [hlens, hfst, hsnd, List.take_of_length_le (by simp), List.drop_of_length_le (by simp),
      List.append_nil, hadj] at hsorted
    simp only [scatter] at htg hts
    simp only [hdeg, htg, hts, hsorted, ofAdj, map_length_adjacency]
    simp [adjacency]

end build

end Tea
