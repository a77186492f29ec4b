import LinearProgramming.CanonicalForm.Basic
import LinearProgramming.Tableau.Extend

/-! # Editing a canonical form

Changes of the model, applied to its canonical form. -/

namespace LinearProgramming.CanonicalForm

variable {α : Type} [Scalar α]

/-- The columns of a variable with their factors; there are none for an unknown variable. -/
def columnsOf (c : CanonicalForm α) (variableIndex : Nat) : List (Nat × α) :=
  match c.placements[variableIndex]? with
  | some placement => placement.columns
  | none => []

def setCost (c : CanonicalForm α) (variableIndex : Nat) (cost : α) : CanonicalForm α :=
  { c with
    tableau := (c.columnsOf variableIndex).foldl
      (fun t (j, factor) => t.setRelativeCost j (-c.direction.sign * factor * cost)) c.tableau }

def setRhs (c : CanonicalForm α) (index : Nat) (rhs : α) : CanonicalForm α :=
  { c with
    tableau := (c.constraintRows index).foldl (fun t (i, sign) => t.setRhs i (sign * rhs)) c.tableau }

def setCoefficient (c : CanonicalForm α) (index variableIndex : Nat) (v : α) : CanonicalForm α :=
  { c with
    tableau := (c.constraintRows index).foldl
      (fun t (i, sign) =>
        (c.columnsOf variableIndex).foldl (fun t (j, factor) => t.setEntry i j (sign * factor * v)) t)
      c.tableau }

/-- Entry of a new variable in a row, from its coefficient in each constraint. -/
def sourceCoefficient (coefficients : List α) : RowSource → α
  | .constraint index half => half.sign * coefficients.getD index 0
  | .binaryBound _ => 0

/-- Add a nonnegative continuous variable; its column comes after all others. -/
def addVariable (c : CanonicalForm α) (cost : α) (coefficients : List α) : CanonicalForm α :=
  { c with
    tableau := c.tableau.addColumn
      ((-c.direction.sign * cost) :: c.rowSources.map (sourceCoefficient coefficients))
    placements := c.placements ++ [.direct c.nrColumns]
    integerColumns := c.integerColumns ++ [false] }

/-- Add a constraint as one or two rows, each with a slack column that comes after all others. -/
def addConstraint (c : CanonicalForm α) (coefficients : List α) (relation : Relation) (rhs : α) :
    CanonicalForm α :=
  { c with
    tableau := c.tableau.addConstraint (c.canonicalCoefficients coefficients) relation rhs
    rowSources := c.rowSources ++ relation.halves.map (.constraint c.nrConstraints)
    integerColumns := c.integerColumns ++ relation.halves.map fun _ => false
    nrConstraints := c.nrConstraints + 1 }

end LinearProgramming.CanonicalForm
