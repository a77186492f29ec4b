import LinearProgramming.Tableau.Basic

/-! # Entering columns

Which column a primal pivot brings into the basis, given the relative costs of the columns that are not basic. -/

namespace LinearProgramming

/-- A way to choose the entering column: the first one with a negative relative cost, or the first one with the most
negative one. -/
inductive EnteringRule where
  | firstProfitable
  | steepest
  deriving DecidableEq, Repr

variable {α : Type} [Scalar α]

/-- The chosen column with its relative cost. There is none when no relative cost is negative. -/
def EnteringRule.select? (rule : EnteringRule) (costs : List (Nat × α)) (ε : α) : Option (Nat × α) :=
  match rule with
  | firstProfitable => costs.find? fun (_, cost) => Scalar.isNegative cost ε
  | steepest => Scalar.firstMinimum (costs.filter fun (_, cost) => Scalar.isNegative cost ε) ε

def Tableau.nonBasicCosts (t : Tableau α) : List (Nat × α) :=
  t.nonBasicColumns.map fun j => (j, t.relativeCost j)

end LinearProgramming
