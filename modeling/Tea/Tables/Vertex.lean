import Tea.Graph.WellFormed
import Tea.Lib.ParallelFor
import Tea.Tables.Alias
import Tea.Tables.Bias
/-!
# What the tables compute for a vertex

Both kinds of tables begin in the same way: they store the bias parameters of a vertex and weigh all its edges.
-/

namespace Tea

open Layout

variable {R P : Type} [Arith R]

/-- The buffers of a build thread: `weights` and `alias_scratch`. -/
structure BuildScratch (R : Type) where
  weights : List R := []
  aliasScratch : AliasBuildScratch R := {}

/-- The weights of all edges of vertex `u`. -/
def vertexWeights (graph : TemporalGraph) (bias : Bias R P) (u : Nat) : List R :=
  bias.fullWeights (graph.timestampsOf u)

/-- The parameters stored for vertex `u`; an empty vertex keeps the default ones. -/
def vertexParams (graph : TemporalGraph) (bias : Bias R P) (u : Nat) : P :=
  if graph.degree u = 0 then bias.defaultParams else bias.computePerVertexParams (graph.timestampsOf u)

variable {graph : TemporalGraph} {bias : Bias R P} {u : Nat}

theorem length_vertexWeights (hg : graph.WellFormed) (hu : u < graph.numVertices) :
    (vertexWeights graph bias u).length = graph.degree u := by
  rw [vertexWeights, Bias.length_fullWeights, hg.length_timestamps u hu]

theorem computeWeights_vertex (hg : graph.WellFormed) (hu : u < graph.numVertices) (buffer : List R) :
    bias.computeWeights (graph.timestampsOf u) (bias.computePerVertexParams (graph.timestampsOf u)) 0
      (resize (graph.degree u) 0 buffer) = vertexWeights graph bias u :=
  bias.computeWeights_eq _ _ (by rw [length_resize, hg.length_timestamps u hu])

/-! ### The array of parameters during a build

Before the loop every cell has the default parameters, so the loop may skip the empty vertices. -/

omit [Arith R] in
theorem splice_vertexParams_empty {biasParams : List P} (hD : graph.degree u = 0)
    (h : biasParams[u]? = some bias.defaultParams) : splice biasParams u [vertexParams graph bias u] = biasParams := by
  obtain ⟨hlt, hget⟩ := List.getElem?_eq_some_iff.mp h
  rw [← set_eq_splice hlt, vertexParams, if_pos hD, ← hget, List.set_getElem_self]

omit [Arith R] in
/-- The writes to other vertices leave an empty vertex its default parameters. -/
theorem getElem?_splice_vertexParams {biasParams : List P} (hu : u < biasParams.length) {v : Nat}
    (hD : graph.degree v = 0) (h : biasParams[v]? = some bias.defaultParams) :
    (splice biasParams u [vertexParams graph bias u])[v]? = some bias.defaultParams := by
  rw [getElem?_splice (by exact hu)]
  split_ifs with hin
  · obtain rfl : v = u := by
      rw [List.length_singleton] at hin
      omega
    simp [vertexParams, hD]
  · exact h

end Tea
