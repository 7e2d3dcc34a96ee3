import Tea.Sampling.NeighborSets
import Tea.Tables.Bias
/-!
# The node2vec bias

`Node2VecBias` has the static weights of `ExponentialBias`. The factor that depends on the walker's previous
vertex enters at sample time, as the acceptance ratio of a proposed step.
-/

namespace Tea

open Arith

variable {R : Type} [Arith R]

/-- `Node2VecBias`. -/
structure Node2VecBias (R : Type) [Arith R] where
  p : R := 1
  q : R := 1
  timescaleBound : R := ofInt (-1)

/-- `std::max` of two numbers: the first unless it is less than the second. -/
def maxOf (a b : R) : R := if lt a b then b else a

namespace Node2VecBias

/-- The static weights are those of `ExponentialBias`. -/
def toBias (exp : R → R) (self : Node2VecBias R) : Bias R (ExpParams R) :=
  ({ timescaleBound := self.timescaleBound } : ExponentialBias R).toBias exp

/-- `beta_max`. -/
def betaMax (self : Node2VecBias R) : R := maxOf (maxOf (1 / self.p) 1) (1 / self.q)

/-- `accept_ratio`. -/
def acceptRatio (self : Node2VecBias R) (prevU candidateV : Int) (neighbors : NeighborSets) : R :=
  if candidateV = prevU then 1 / self.p / self.betaMax
  else if neighbors.contains prevU candidateV then 1 / self.betaMax
  else 1 / self.q / self.betaMax

end Node2VecBias

end Tea
