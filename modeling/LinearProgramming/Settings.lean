import LinearProgramming.Scalar.Basic

/-! # Settings

All tolerances and effort limits, so that no algorithm decides for itself what counts as zero or how long
to try. -/

namespace LinearProgramming

/-- How far a value may be off and still count as zero, as one or as an integer: `unit` where unit columns are
recognised, `knapsack` in the knapsack search, and `general` everywhere else. -/
structure Tolerances (α : Type) where
  unit : α
  general : α
  knapsack : α
  deriving DecidableEq

/-- Tolerances and limits of a solve. The pivots are those of a single simplex run. After `maxDegeneratePivots`
successive primal pivots without a change of the objective, the smallest index decides. Without `maxNodes` there is no
limit. -/
structure Settings (α : Type) where
  tolerances : Tolerances α
  maxPivots : Nat
  maxDegeneratePivots : Nat
  maxNodes : Option Nat
  maxCuts : Nat
  maxKnapsackIterations : Nat
  recordIterations : Bool
  deriving DecidableEq

variable {α : Type} [Scalar α]

def Tolerances.standard : Tolerances α := ⟨1e-9, 1e-6, 1e-3⟩

def Settings.standard : Settings α where
  tolerances := Tolerances.standard
  maxPivots := 10000
  maxDegeneratePivots := 10
  maxNodes := some 100000
  maxCuts := 500
  maxKnapsackIterations := 30
  recordIterations := true

end LinearProgramming
