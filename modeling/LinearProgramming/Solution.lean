import LinearProgramming.CanonicalForm.Basic

/-! # Outcomes and solutions -/

namespace LinearProgramming

/-- What is found out about a program: it has no solution, solutions of any objective value, or an optimum. -/
inductive Outcome (β : Type) where
  | infeasible
  | unbounded
  | optimal (value : β)
  deriving DecidableEq

def Outcome.map {β γ : Type} (f : β → γ) : Outcome β → Outcome γ
  | infeasible => infeasible
  | unbounded => unbounded
  | optimal value => optimal (f value)

def Outcome.status {β : Type} : Outcome β → String
  | infeasible => "infeasible"
  | unbounded => "unbounded"
  | optimal _ => "optimal"

/-- An optimum in terms of the model, with the tableau that it was read from. -/
structure Solution (α : Type) where
  objectiveValue : α
  values : List α
  tableau : Tableau α
  deriving DecidableEq

variable {α : Type} [Scalar α]

/-- Whether two solutions have the same objective value and the same values, up to `ε`. Different bases may
describe the same point, so the tableaus are not compared. -/
def Solution.approxEq (s t : Solution α) (ε : α) : Bool :=
  Scalar.isZero (s.objectiveValue - t.objectiveValue) ε && s.values.length == t.values.length &&
    (List.zipWith (fun a b => Scalar.isZero (a - b) ε) s.values t.values).all id

/-- Read a solution from an optimal tableau of a canonical form, which may have rows and columns appended. -/
def CanonicalForm.solution (c : CanonicalForm α) (t : Tableau α) (columnValues : List α) : Solution α :=
  ⟨c.objectiveValue t.objectiveValue, c.modelValues columnValues, t⟩

end LinearProgramming
