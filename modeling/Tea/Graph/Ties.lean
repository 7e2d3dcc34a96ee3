import Tea.Graph.Contents
/-!
# When the built graph depends on the schedule

The sort of a vertex sees timestamps only, so entries of one vertex with equal timestamps keep an order that
comes from the scatter. `TiesSettled` says that this order does not matter: at every vertex either entries
with equal timestamps have equal targets, or all its captures are made by one chunk of the loop, which one
thread performs in order.

* If ties are settled, all schedules give the same adjacency lists (`adjacency_eq_of_settled`).
* If they are not, two captures of different threads at one vertex store different entries; performing them
  next to each other in either order gives two schedules that some sorting function tells apart
  (`settled_of_adjacency_eq`), and every sorting function does if the two entries are tied themselves
  (`exists_schedules_of_tie`).
-/

namespace Tea

/-- No vertex has entries of equal timestamps and different targets, unless one chunk of iterations makes
all captures of the vertex. -/
def TiesSettled (edges : List Edge) (isDirected : Bool) : Prop :=
  ∀ v : Int,
    (∀ c ∈ edges.flatMap (captures isDirected), ∀ c' ∈ edges.flatMap (captures isDirected),
      c.vertex = v → c'.vertex = v → c.ts = c'.ts → c.target = c'.target) ∨
    ∀ i j e e', edges[i]? = some e → edges[j]? = some e' → (∃ c ∈ captures isDirected e, c.vertex = v) →
      (∃ c ∈ captures isDirected e', c.vertex = v) → i / kScatterChunk = j / kScatterChunk

section ties

variable {edges : List Edge} {isDirected : Bool}

theorem mem_arrivals {cs : List Capture} {v : Nat} {a : Entry} :
    a ∈ arrivals cs v ↔ ∃ c ∈ cs, c.vertex = v ∧ (c.ts, c.target) = a := by
  simp [arrivals, capturesAt, and_assoc]

theorem mem_arrivals_of_perm {cs cs' : List Capture} (h : cs'.Perm cs) {v : Nat} {a : Entry}
    (ha : a ∈ arrivals cs v) : a ∈ arrivals cs' v := by
  obtain ⟨c, hc, hcv, rfl⟩ := mem_arrivals.mp ha
  exact mem_arrivals.mpr ⟨c, h.mem_iff.mpr hc, hcv, rfl⟩

theorem arrivals_append (cs cs' : List Capture) (v : Nat) :
    arrivals (cs ++ cs') v = arrivals cs v ++ arrivals cs' v := by
  rw [arrivals, capturesAt_append, List.map_append]
  rfl

theorem arrivals_cons_of_vertex {c : Capture} {v : Nat} (hv : c.vertex = v) (cs : List Capture) :
    arrivals (c :: cs) v = (c.ts, c.target) :: arrivals cs v := by
  rw [arrivals, capturesAt_cons_of_vertex hv]
  rfl

theorem arrivals_append_pair {c c' : Capture} {v : Nat} (hcv : c.vertex = v) (hcv' : c'.vertex = v)
    (pre post : List Capture) : arrivals (pre ++ c :: c' :: post) v =
      arrivals pre v ++ (c.ts, c.target) :: (c'.ts, c'.target) :: arrivals post v := by
  rw [arrivals_append, arrivals_cons_of_vertex hcv, arrivals_cons_of_vertex hcv']

theorem Schedule.arrivals_eq_of_chunk (σ : Schedule edges isDirected) (v : Nat)
    (hchunk : ∀ i j e e', edges[i]? = some e → edges[j]? = some e' →
      (∃ c ∈ captures isDirected e, c.vertex = (v : Int)) →
      (∃ c ∈ captures isDirected e', c.vertex = (v : Int)) → i / kScatterChunk = j / kScatterChunk) :
    arrivals σ.captured v = arrivals (edges.flatMap (captures isDirected)) v := by
  -- some chunk that captures at `v`, if any does
  obtain ⟨k, hk⟩ : ∃ k, ∀ i e, edges[i]? = some e → (∃ c ∈ captures isDirected e, c.vertex = (v : Int)) →
      i / kScatterChunk = k := by
    by_cases hex : ∃ (j : Nat) (e' : Edge), edges[j]? = some e' ∧ ∃ c ∈ captures isDirected e', c.vertex = (v : Int)
    · obtain ⟨j, e', hj, hc'⟩ := hex
      exact ⟨j / kScatterChunk, fun i e hi hc => hchunk i j e e' hi hj hc hc'⟩
    · exact ⟨0, fun i e hi hc => absurd ⟨i, e, hi, hc⟩ hex⟩
  have hselected : ∀ i e, edges[i]? = some e →
      (∃ c ∈ captures isDirected e, (fun c : Capture => decide (c.vertex = v)) c) → i / kScatterChunk = k :=
    fun i e hi hc => hk i e hi (by simpa using hc)
  rw [arrivals, capturesAt, Interleaves.filter_eq_of_chunk hselected σ.threads_pos σ.captured_order]
  rfl

theorem adjacency_eq_of_settled (h : TiesSettled edges isDirected) (S : StdSort) (n : Nat)
    (σ σ' : Schedule edges isDirected) : adjacency S n σ.captured = adjacency S n σ'.captured := by
  refine List.map_congr_left fun v _ => ?_
  rcases h v with hties | hchunk
  · refine S.sort_eq_of_perm S Prod.fst ((σ.arrivals_perm v).trans (σ'.arrivals_perm v).symm) ?_
    intro a ha b hb hab
    obtain ⟨c, hc, hcv, rfl⟩ := mem_arrivals.mp ha
    obtain ⟨c', hc', hcv', rfl⟩ := mem_arrivals.mp hb
    have := hties c (σ.captured_perm.mem_iff.mp hc) c' (σ.captured_perm.mem_iff.mp hc') hcv hcv' hab
    exact Prod.ext hab this
  · rw [σ.arrivals_eq_of_chunk v hchunk, σ'.arrivals_eq_of_chunk v hchunk]

/-- Two captures of different threads can be performed next to each other in either order. -/
theorem exists_swapped_schedules {threads i j : Nat} (hthreads : 0 < threads) {e e' : Edge} (hi : edges[i]? = some e)
    (hj : edges[j]? = some e') (hij : i / kScatterChunk % threads < j / kScatterChunk % threads) {c c' : Capture}
    (hc : c ∈ captures isDirected e) (hc' : c' ∈ captures isDirected e') :
    ∃ (σ σ' : Schedule edges isDirected) (pre post : List Capture), σ.threads = threads ∧ σ'.threads = threads ∧
      σ.captured = pre ++ c :: c' :: post ∧ σ'.captured = pre ++ c' :: c :: post := by
  have hd : j / kScatterChunk % threads <
      (staticPrograms threads kScatterChunk (captures isDirected) edges).length := by
    rw [length_staticPrograms]
    exact Nat.mod_lt _ hthreads
  obtain ⟨pre, post, h, h'⟩ := Interleaves.exists_swap hij hd (mem_staticPrograms hi hc _ rfl (hij.trans hd))
    (mem_staticPrograms hj hc' _ rfl hd)
  let σ := Schedule.sequential edges isDirected threads hthreads
  exact ⟨{ σ with captured := _, captured_order := h }, { σ with captured := _, captured_order := h' },
    pre, post, rfl, rfl, rfl, rfl⟩

theorem chunk_thread_lt {i j : Nat} (hj : j < edges.length) (hij : i / kScatterChunk < j / kScatterChunk) :
    i / kScatterChunk % edges.length < j / kScatterChunk % edges.length := by
  have hle : j / kScatterChunk ≤ j := Nat.div_le_self _ _
  rw [Nat.mod_eq_of_lt (by omega), Nat.mod_eq_of_lt (by omega)]
  exact hij

theorem adjacency_getElem_eq {S : StdSort} {n v : Nat} {cs cs' : List Capture} (hv : v < n)
    (h : adjacency S n cs = adjacency S n cs') :
    S.sort Prod.fst (arrivals cs v) = S.sort Prod.fst (arrivals cs' v) := by
  have hget := congrArg (fun adj => adj[v]?) h
  simpa [adjacency, hv] using hget

/-- Two tied entries of one vertex from different threads: every sorting function yields different graphs. -/
theorem exists_schedules_of_tie (S : StdSort) {n : Nat} {threads i j : Nat} (hthreads : 0 < threads) {e e' : Edge}
    (hi : edges[i]? = some e) (hj : edges[j]? = some e')
    (hij : i / kScatterChunk % threads < j / kScatterChunk % threads) {c c' : Capture} (hc : c ∈ captures isDirected e)
    (hc' : c' ∈ captures isDirected e') {v : Nat} (hv : v < n) (hcv : c.vertex = v) (hcv' : c'.vertex = v)
    (hts : c.ts = c'.ts) (htg : c.target ≠ c'.target) :
    ∃ σ σ' : Schedule edges isDirected, σ.threads = threads ∧ σ'.threads = threads ∧
      adjacency S n σ.captured ≠ adjacency S n σ'.captured := by
  obtain ⟨σ, σ', pre, post, hthreads, hthreads', hσ, hσ'⟩ := exists_swapped_schedules hthreads hi hj hij hc hc'
  refine ⟨σ, σ', hthreads, hthreads', fun h => htg ?_⟩
  have hsort := adjacency_getElem_eq hv h
  have harr := arrivals_append_pair hcv hcv' pre post
  have harr' := arrivals_append_pair hcv' hcv pre post
  rw [← hσ] at harr
  rw [← hσ'] at harr'
  have heq := S.eq_of_sort_eq Prod.fst (by simp [harr, harr', hts]) hsort
  rw [harr, harr', List.append_cancel_left_eq, List.cons.injEq, Prod.mk.injEq] at heq
  exact heq.1.2

theorem exists_sort_of_swap {n v : Nat} (hv : v < n) {σ σ' : Schedule edges isDirected}
    {pre post : List Capture} {c c' : Capture} (hσ : σ.captured = pre ++ c :: c' :: post)
    (hσ' : σ'.captured = pre ++ c' :: c :: post) (hcv : c.vertex = v) (hcv' : c'.vertex = v)
    (hts : c.ts ≠ c'.ts)
    (hties : ∃ a ∈ arrivals σ'.captured v, ∃ b ∈ arrivals σ'.captured v, a.1 = b.1 ∧ a ≠ b) :
    ∃ S : StdSort, adjacency S n σ.captured ≠ adjacency S n σ'.captured := by
  have harr : (arrivals σ.captured v).map Prod.fst =
      (arrivals pre v).map Prod.fst ++ c.ts :: c'.ts :: (arrivals post v).map Prod.fst := by
    rw [hσ, arrivals_append_pair hcv hcv']
    simp
  have harr' : (arrivals σ'.captured v).map Prod.fst =
      (arrivals pre v).map Prod.fst ++ c'.ts :: c.ts :: (arrivals post v).map Prod.fst := by
    rw [hσ', arrivals_append_pair hcv' hcv]
    simp
  have hpattern : ¬ StdSort.SamePattern ((arrivals σ'.captured v).map Prod.fst)
      ((arrivals σ.captured v).map Prod.fst) := by
    rw [harr, harr']
    rintro ⟨-, h⟩
    set p := (arrivals pre v).map Prod.fst
    have h1 := h p.length (p.length + 1) (by simp) (by simp)
    have h2 := h (p.length + 1) p.length (by simp) (by simp)
    simp [List.getD_eq_getElem?_getD] at h1 h2
    omega
  obtain ⟨S, hS⟩ := StdSort.exists_sort_ne Prod.fst hpattern hties
  exact ⟨S, fun h => hS (adjacency_getElem_eq hv h)⟩

theorem exists_sort_of_chunks {n v : Nat} (hv : v < n) {i j : Nat} {e e' : Edge} (hi : edges[i]? = some e)
    (hj : edges[j]? = some e') (hij : i / kScatterChunk < j / kScatterChunk) {c c' : Capture}
    (hc : c ∈ captures isDirected e) (hc' : c' ∈ captures isDirected e') (hcv : c.vertex = v)
    (hcv' : c'.vertex = v) (hne : (c.ts, c.target) ≠ (c'.ts, c'.target)) {a b : Entry}
    (ha : a ∈ arrivals (edges.flatMap (captures isDirected)) v)
    (hb : b ∈ arrivals (edges.flatMap (captures isDirected)) v) (hab : a.1 = b.1) (hab' : a ≠ b) :
    ∃ (S : StdSort) (σ σ' : Schedule edges isDirected), adjacency S n σ.captured ≠ adjacency S n σ'.captured := by
  have hjlt : j < edges.length := (List.getElem?_eq_some_iff.mp hj).1
  have hthreads : 0 < edges.length := by omega
  have hlt := chunk_thread_lt hjlt hij
  by_cases hts : c.ts = c'.ts
  · have htg : c.target ≠ c'.target := fun h => hne (Prod.ext hts h)
    obtain ⟨σ, σ', -, -, h⟩ := exists_schedules_of_tie StdSort.stable hthreads hi hj hlt hc hc' hv hcv hcv' hts htg
    exact ⟨_, σ, σ', h⟩
  · obtain ⟨σ, σ', pre, post, -, -, hσ, hσ'⟩ := exists_swapped_schedules hthreads hi hj hlt hc hc'
    have hperm := σ'.captured_perm
    obtain ⟨S, hS⟩ := exists_sort_of_swap hv hσ hσ' hcv hcv' hts
      ⟨a, mem_arrivals_of_perm hperm ha, b, mem_arrivals_of_perm hperm hb, hab, hab'⟩
    exact ⟨S, σ, σ', hS⟩

theorem entry_eq_of_chunks {n v : Nat} (hv : v < n)
    (h : ∀ (S : StdSort) (σ σ' : Schedule edges isDirected), adjacency S n σ.captured = adjacency S n σ'.captured)
    {a b : Entry} (ha : a ∈ arrivals (edges.flatMap (captures isDirected)) v)
    (hb : b ∈ arrivals (edges.flatMap (captures isDirected)) v) (hab : a.1 = b.1) (hab' : a ≠ b) {i j : Nat}
    {e e' : Edge} (hi : edges[i]? = some e) (hj : edges[j]? = some e')
    (hij : i / kScatterChunk ≠ j / kScatterChunk) {c c' : Capture} (hc : c ∈ captures isDirected e)
    (hc' : c' ∈ captures isDirected e') (hcv : c.vertex = v) (hcv' : c'.vertex = v) :
    (c.ts, c.target) = (c'.ts, c'.target) := by
  by_contra hne
  rcases Nat.lt_or_gt_of_ne hij with hlt | hlt
  · obtain ⟨S, σ, σ', hS⟩ := exists_sort_of_chunks hv hi hj hlt hc hc' hcv hcv' hne ha hb hab hab'
    exact hS (h S σ σ')
  · obtain ⟨S, σ, σ', hS⟩ := exists_sort_of_chunks hv hj hi hlt hc' hc hcv' hcv (Ne.symm hne) ha hb hab hab'
    exact hS (h S σ σ')

/-- If every schedule gives the same lists for every sorting function, ties are settled. -/
theorem settled_of_adjacency_eq {n : Nat} (hin : EndpointsIn edges n)
    (h : ∀ (S : StdSort) (σ σ' : Schedule edges isDirected),
      adjacency S n σ.captured = adjacency S n σ'.captured) : TiesSettled edges isDirected := by
  intro w
  by_contra hneg
  rw [not_or] at hneg
  obtain ⟨htie, hchunk⟩ := hneg
  push Not at htie hchunk
  obtain ⟨a, ha, b, hb, hav, hbv, hts, htg⟩ := htie
  obtain ⟨v, rfl⟩ := Int.eq_ofNat_of_zero_le (hav ▸ (captures_in hin a ha).1)
  have hv : v < n := by have := (captures_in hin a ha).2; omega
  have hta : (a.ts, a.target) ∈ arrivals (edges.flatMap (captures isDirected)) v :=
    mem_arrivals.mpr ⟨a, ha, hav, rfl⟩
  have htb : (b.ts, b.target) ∈ arrivals (edges.flatMap (captures isDirected)) v :=
    mem_arrivals.mpr ⟨b, hb, hbv, rfl⟩
  have hne : (a.ts, a.target) ≠ (b.ts, b.target) := fun hab => htg (congrArg Prod.snd hab)
  obtain ⟨i, j, e, e', hi, hj, ⟨c, hc, hcv⟩, ⟨c', hc', hcv'⟩, hij⟩ := hchunk
  have hcc := entry_eq_of_chunks hv h hta htb hts hne hi hj hij hc hc' hcv hcv'
  -- so every entry of the vertex is the one stored from `i` and from `j`
  have hall : ∀ d ∈ edges.flatMap (captures isDirected), d.vertex = v →
      (d.ts, d.target) = (c.ts, c.target) := by
    intro d hd hdv
    obtain ⟨f, hf, hdf⟩ := List.mem_flatMap.mp hd
    obtain ⟨k, hk⟩ := List.mem_iff_getElem?.mp hf
    by_cases hki : k / kScatterChunk = i / kScatterChunk
    · rw [hcc]
      exact entry_eq_of_chunks hv h hta htb hts hne hk hj (by omega) hdf hc' hdv hcv'
    · exact entry_eq_of_chunks hv h hta htb hts hne hk hi hki hdf hc hdv hcv
  have hab := (hall a ha hav).trans (hall b hb hbv).symm
  exact htg (congrArg Prod.snd hab)

end ties

end Tea
