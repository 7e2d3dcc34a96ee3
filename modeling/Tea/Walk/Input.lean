import Tea.Graph.WellFormed
import Tea.Walk.Steps
import Mathlib.Data.Finset.Card
/-!
# Hops over the edges of the input

A hop on a built graph goes against an edge of the input, strictly back in time (`hop_iff_follows`), and a slot has no
candidate exactly if no edge leads further back from it (`noCandidate_iff_follows`). Walks start at the `receivers`, the
vertices that some edge leads into.
-/

namespace Tea

/-- The times of the input. -/
def edgeTimes (edges : List Edge) : Finset Int := (edges.map Edge.t).toFinset

/-- The vertices that the edges lead into, in either direction if undirected. -/
def receivers (edges : List Edge) (isDirected : Bool) : Finset Int := (edges.flatMap (increments isDirected)).toFinset

/-- From slot `a` to slot `b` against an edge of the input, strictly back in time. -/
def Follows (edges : List Edge) (isDirected : Bool) (a b : NodeStep) : Prop :=
  b.t < a.t ∧ ∃ e ∈ edges, e.t = b.t ∧ (e.v = a.v ∧ e.u = b.v ∨ isDirected = false ∧ e.u = a.v ∧ e.v = b.v)

theorem mem_inbound {edges : List Edge} {isDirected : Bool} {v : Nat} {t x : Int} :
    (t, x) ∈ inbound edges isDirected v ↔
      ∃ e ∈ edges, e.t = t ∧ (e.v = v ∧ e.u = x ∨ isDirected = false ∧ e.u = v ∧ e.v = x) := by
  unfold inbound
  rw [List.mem_append, List.mem_map]
  constructor
  · rintro (⟨e, he, heq⟩ | hside)
    · obtain ⟨rfl, rfl⟩ := Prod.mk.inj heq
      obtain ⟨hmem, hv⟩ := List.mem_filter.mp he
      exact ⟨e, hmem, rfl, .inl ⟨of_decide_eq_true hv, rfl⟩⟩
    · split_ifs at hside with hdir
      · cases hside
      · obtain ⟨e, he, heq⟩ := List.mem_map.mp hside
        obtain ⟨rfl, rfl⟩ := Prod.mk.inj heq
        obtain ⟨hmem, hu⟩ := List.mem_filter.mp he
        exact ⟨e, hmem, rfl, .inr ⟨by simpa using hdir, of_decide_eq_true hu, rfl⟩⟩
  · rintro ⟨e, he, rfl, ⟨hv, rfl⟩ | ⟨rfl, hu, rfl⟩⟩
    · exact .inl ⟨e, List.mem_filter.mpr ⟨he, decide_eq_true hv⟩, rfl⟩
    · rw [if_neg Bool.false_ne_true]
      exact .inr (List.mem_map.mpr ⟨e, List.mem_filter.mpr ⟨he, decide_eq_true hu⟩, rfl⟩)

theorem mem_receivers {edges : List Edge} {isDirected : Bool} {x : Int} :
    x ∈ receivers edges isDirected ↔ ∃ e ∈ edges, e.v = x ∨ isDirected = false ∧ e.u = x := by
  unfold receivers increments
  rw [List.mem_toFinset, List.mem_flatMap]
  cases isDirected <;> simp [or_comm, eq_comm]

theorem Follows.time_mem {edges : List Edge} {isDirected : Bool} {a b : NodeStep} (h : Follows edges isDirected a b) :
    b.t ∈ edgeTimes edges := by
  obtain ⟨-, e, he, ht, -⟩ := h
  exact List.mem_toFinset.mpr (List.mem_map.mpr ⟨e, he, ht⟩)

theorem exists_vertex {edges : List Edge} {isDirected : Bool} {n : Nat} (hin : EndpointsIn edges n) {x : Int}
    (hx : x ∈ receivers edges isDirected) : ∃ u < n, x = (u : Int) := by
  obtain ⟨e, he, hex⟩ := mem_receivers.mp hx
  obtain ⟨hu, hv⟩ := hin e he
  have hrange : 0 ≤ x ∧ x < n := by
    rcases hex with rfl | ⟨-, rfl⟩
    · exact hv
    · exact hu
  exact ⟨x.toNat, by omega, by omega⟩

section stored

variable {graph : TemporalGraph} (hg : graph.WellFormed) {edges : List Edge} {isDirected : Bool}
  (hstores : StoresInput graph edges graph.numVertices isDirected)

include hstores

theorem mem_entriesOf_iff_follows {a b : NodeStep} (ha : InGraph graph a) :
    (b.t, b.v) ∈ graph.entriesOf a.v.toNat ∧ b.t < a.t ↔ Follows edges isDirected a b := by
  rw [(hstores.entries _ ha.toNat_lt).mem_iff, mem_inbound, Int.toNat_of_nonneg ha.1, and_comm]
  rfl

theorem hop_iff_follows {a b : NodeStep} (ha : InGraph graph a) : Hop graph a b ↔ Follows edges isDirected a b := by
  rw [Hop, and_iff_right ha, mem_entriesOf_iff_follows hstores ha]

include hg

theorem noCandidate_iff_follows {a : NodeStep} (ha : InGraph graph a) :
    NoCandidate graph a ↔ ∀ b, ¬ Follows edges isDirected a b := by
  rw [NoCandidate, hg.candidateSetLen_eq_zero_iff ha.toNat_lt]
  constructor
  · intro h b hb
    obtain ⟨hmem, htime⟩ := (mem_entriesOf_iff_follows hstores ha).mpr hb
    exact h _ hmem htime
  · intro h e he htime
    exact h ⟨e.2, e.1⟩ ((mem_entriesOf_iff_follows hstores ha).mp ⟨he, htime⟩)

theorem degree_pos_iff {u : Nat} (hu : u < graph.numVertices) :
    0 < graph.degree u ↔ (u : Int) ∈ receivers edges isDirected := by
  have hlen : (graph.entriesOf u).length = graph.degree u := by
    rw [TemporalGraph.entriesOf, List.length_zip, hg.length_timestamps u hu, hg.length_targets u hu, Nat.min_self]
  rw [← hlen, (hstores.entries u hu).length_eq, List.length_pos_iff_exists_mem, mem_receivers]
  constructor
  · rintro ⟨⟨t, x⟩, hmem⟩
    obtain ⟨e, he, -, ⟨hv, -⟩ | ⟨hdir, hu, -⟩⟩ := mem_inbound.mp hmem
    · exact ⟨e, he, .inl hv⟩
    · exact ⟨e, he, .inr ⟨hdir, hu⟩⟩
  · rintro ⟨e, he, hv | ⟨hdir, hu⟩⟩
    · exact ⟨(e.t, e.u), mem_inbound.mpr ⟨e, he, rfl, .inl ⟨hv, rfl⟩⟩⟩
    · exact ⟨(e.t, e.v), mem_inbound.mpr ⟨e, he, rfl, .inr ⟨hdir, hu, rfl⟩⟩⟩

end stored

end Tea
