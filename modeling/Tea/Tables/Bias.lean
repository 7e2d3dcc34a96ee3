import Tea.Base.Arith
import Tea.Lib.Layout
/-!
# Biases

A bias assigns static weights to the time-ascending edges of a vertex. The tables and samplers are templates
over it: they compute its per-vertex parameters once, over all timestamps of the vertex, and its weights for
the whole list at build time and for slices of it at sample time.

`compute_weights` writes into a buffer that its caller reuses. A `Bias` carries the contract that makes this
safe: the call keeps the length of a buffer of the right size and its result is the same for every previous
contents (`weights`).
-/

namespace Tea

open Layout Arith

/-- The interface of a bias class with parameters `P`; `defaultParams` is `PerVertexParams{}`. -/
structure Bias (R P : Type) where
  defaultParams : P
  computePerVertexParams : (tsAsc : List Int) → P
  computeWeights : (tsSlice : List Int) → (params : P) → (sliceStartPos : Nat) → (out : List R) → List R
  length_computeWeights : ∀ ts params pos out, (computeWeights ts params pos out).length = out.length
  computeWeights_congr : ∀ ts params pos out out', out.length = ts.length → out'.length = ts.length →
    computeWeights ts params pos out = computeWeights ts params pos out'

namespace Bias

variable {R P : Type} [Arith R]

/-- What `compute_weights` leaves in a buffer of the right length. -/
def weights (b : Bias R P) (ts : List Int) (params : P) (pos : Nat) : List R :=
  b.computeWeights ts params pos (List.replicate ts.length 0)

@[simp] theorem length_weights (b : Bias R P) (ts : List Int) (params : P) (pos : Nat) :
    (b.weights ts params pos).length = ts.length := by
  rw [weights, b.length_computeWeights, List.length_replicate]

theorem computeWeights_eq (b : Bias R P) {ts : List Int} (params : P) (pos : Nat) {out : List R}
    (h : out.length = ts.length) : b.computeWeights ts params pos out = b.weights ts params pos :=
  b.computeWeights_congr ts params pos out _ h List.length_replicate

/-- The weights of all edges of a vertex with timestamps `ts`. -/
def fullWeights (b : Bias R P) (ts : List Int) : List R := b.weights ts (b.computePerVertexParams ts) 0

@[simp] theorem length_fullWeights (b : Bias R P) (ts : List Int) : (b.fullWeights ts).length = ts.length :=
  b.length_weights _ _ _

/-- Every weight is strictly positive. -/
def Positive (b : Bias R P) : Prop := ∀ ts params pos, ∀ w ∈ b.weights ts params pos, lt 0 w = true

/-- On prefixes of `ts` the weights are the prefixes of `ws`. -/
def RestrictsOnPrefixes (b : Bias R P) (ts : List Int) (ws : List R) : Prop :=
  ∀ len ≤ ts.length, b.weights (slice ts 0 len) (b.computePerVertexParams ts) 0 = slice ws 0 len

/-- On slices of `ts` the weights are the slices of `ws`. -/
def RestrictsOnSlices (b : Bias R P) (ts : List Int) (ws : List R) : Prop :=
  ∀ pos len, pos + len ≤ ts.length →
    b.weights (slice ts pos len) (b.computePerVertexParams ts) pos = slice ws pos len

variable {b : Bias R P} {ts : List Int} {ws : List R}

theorem RestrictsOnSlices.onPrefixes (h : b.RestrictsOnSlices ts ws) : b.RestrictsOnPrefixes ts ws :=
  fun len hlen => h 0 len (by omega)

theorem RestrictsOnPrefixes.fullWeights_eq (h : b.RestrictsOnPrefixes ts ws) (hlen : ws.length = ts.length) :
    b.fullWeights ts = ws := by
  have h := h ts.length le_rfl
  rw [slice_zero_length, ← hlen, slice_zero_length] at h
  exact h

/-- A bias whose weight of an edge depends on its timestamp, its position and the parameters only. -/
def ofEdgeWeight (defaultParams : P) (computePerVertexParams : List Int → P) (weight : P → Nat → Int → R) :
    Bias R P where
  defaultParams := defaultParams
  computePerVertexParams := computePerVertexParams
  computeWeights ts params pos out := fill (fun i => weight params (pos + i) (ts.getD i 0)) ts.length out
  length_computeWeights ts params pos out := length_fill _ _ _
  computeWeights_congr ts params pos out out' h h' := by rw [fill_eq _ h, fill_eq _ h']

section ofEdgeWeight

variable {defaultParams : P} {params : List Int → P} {weight : P → Nat → Int → R}

theorem weights_ofEdgeWeight (ts : List Int) (p : P) (pos : Nat) :
    (ofEdgeWeight defaultParams params weight).weights ts p pos =
      (List.range ts.length).map fun i => weight p (pos + i) (ts.getD i 0) :=
  fill_eq _ List.length_replicate

theorem getD_fullWeights_ofEdgeWeight {ts : List Int} {i : Nat} (hi : i < ts.length) (d : R) :
    ((ofEdgeWeight defaultParams params weight).fullWeights ts).getD i d = weight (params ts) i (ts.getD i 0) := by
  have hlen : i < ((List.range ts.length).map fun i => weight (params ts) (0 + i) (ts.getD i 0)).length := by simpa using hi
  have hparams : (ofEdgeWeight defaultParams params weight).computePerVertexParams ts = params ts := rfl
  rw [fullWeights, hparams, weights_ofEdgeWeight, List.getD_eq_getElem _ _ hlen, List.getElem_map, List.getElem_range,
    Nat.zero_add]

theorem ofEdgeWeight_positive (h : ∀ p pos t, lt 0 (weight p pos t) = true) :
    (ofEdgeWeight defaultParams params weight).Positive := by
  intro ts p pos w hw
  rw [weights_ofEdgeWeight] at hw
  obtain ⟨i, -, rfl⟩ := List.mem_map.mp hw
  exact h p _ _

theorem ofEdgeWeight_restricts (ts : List Int) :
    (ofEdgeWeight defaultParams params weight).RestrictsOnSlices ts
      ((ofEdgeWeight defaultParams params weight).fullWeights ts) := by
  intro pos len hlen
  rw [fullWeights, weights_ofEdgeWeight, weights_ofEdgeWeight]
  apply List.ext_getElem?
  intro i
  rw [getElem?_slice, length_slice hlen]
  split_ifs with hi
  · have hpos : pos + i < ts.length := by omega
    have hget : (slice ts pos len).getD i 0 = ts.getD (pos + i) 0 := by
      rw [List.getD_eq_getElem?_getD, getElem?_slice, if_pos hi, List.getD_eq_getElem?_getD]
    simp only [List.getElem?_map, List.getElem?_range hi, List.getElem?_range hpos, Option.map_some, hget,
      Nat.zero_add]
  · simp [hi]

end ofEdgeWeight

end Bias

/-! ### `UniformBias` and `LinearBias` -/

section concrete

variable {R : Type} [Arith R]

/-- `UniformBias`: every weight is one. -/
def uniformBias : Bias R Unit := Bias.ofEdgeWeight () (fun _ => ()) fun _ _ _ => 1

/-- `LinearBias`: the rank of the edge, one for the oldest. -/
def linearBias : Bias R Unit := Bias.ofEdgeWeight () (fun _ => ()) fun _ pos _ => ofInt (pos + 1)

/-! ### `ExponentialBias` -/

/-- `ExponentialBias::PerVertexParams`. -/
structure ExpParams (R : Type) where
  tPivot : R
  scale : R

/-- `ExponentialBias`, with its `timescale_bound`. -/
structure ExponentialBias (R : Type) [Arith R] where
  timescaleBound : R := ofInt (-1)

namespace ExponentialBias

def computePerVertexParams (self : ExponentialBias R) (tsAsc : List Int) : ExpParams R :=
  if tsAsc.isEmpty then ⟨0, 0⟩
  else
    let tMin : R := ofInt (tsAsc.getD 0 0)
    let tMax : R := ofInt (tsAsc.getD (tsAsc.length - 1) 0)
    let span := tMax - tMin
    if le span 0 then ⟨tMax, 0⟩
    else ⟨tMax, if lt 0 self.timescaleBound then self.timescaleBound / span else 1⟩

/-- The bias; `exp` is `std::exp`. -/
def toBias (exp : R → R) (self : ExponentialBias R) : Bias R (ExpParams R) :=
  Bias.ofEdgeWeight ⟨0, 0⟩ self.computePerVertexParams fun params _ t =>
    exp ((ofInt t - params.tPivot) * params.scale)

end ExponentialBias

/-! ### The biases meet the assumptions of the samplers -/

theorem uniformBias_positive [PosArith R] : (uniformBias : Bias R Unit).Positive :=
  Bias.ofEdgeWeight_positive fun _ _ _ => PosArith.one_pos

theorem linearBias_positive [PosArith R] : (linearBias : Bias R Unit).Positive :=
  Bias.ofEdgeWeight_positive fun _ pos _ => PosArith.ofInt_pos _ (by omega)

theorem ExponentialBias.toBias_positive {exp : R → R} (hexp : ∀ x, lt 0 (exp x) = true)
    (self : ExponentialBias R) : (self.toBias exp).Positive :=
  Bias.ofEdgeWeight_positive fun _ _ _ => hexp _

theorem uniformBias_restricts (ts : List Int) :
    (uniformBias : Bias R Unit).RestrictsOnSlices ts (uniformBias.fullWeights ts) :=
  Bias.ofEdgeWeight_restricts ts

theorem linearBias_restricts (ts : List Int) :
    (linearBias : Bias R Unit).RestrictsOnSlices ts (linearBias.fullWeights ts) :=
  Bias.ofEdgeWeight_restricts ts

theorem ExponentialBias.toBias_restricts (exp : R → R) (self : ExponentialBias R) (ts : List Int) :
    (self.toBias exp).RestrictsOnSlices ts ((self.toBias exp).fullWeights ts) :=
  Bias.ofEdgeWeight_restricts ts

end concrete

end Tea
