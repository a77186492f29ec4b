import LinearProgramming.Error
import LinearProgramming.Model.Vocabulary

/-! # Models

A model is a linear program as it is stated: a direction, a cost and a domain per variable, and constraints
over these variables. `Model.ofData` accepts exactly the data whose lengths agree and whose numbers are finite;
`Model.isFeasible` and `Model.objectiveValue` say what the model means. -/

namespace LinearProgramming

structure Constraint (α : Type) where
  coefficients : List α
  relation : Relation
  rhs : α
  deriving DecidableEq

structure Model (α : Type) where
  direction : Direction
  cost : List α
  domains : List VariableDomain
  constraints : List (Constraint α)
  deriving DecidableEq

variable {α : Type} [Scalar α]

def Constraint.isSatisfied (c : Constraint α) (values : List α) (ε : α) : Bool :=
  let lhs := Scalar.dot c.coefficients values
  match c.relation with
  | .less => lhs ≤ c.rhs + ε
  | .greater => c.rhs - ε ≤ lhs
  | .equal => Scalar.abs (lhs - c.rhs) ≤ ε

/-- Whether a value lies in a domain, up to `ε` and apart from integrality. -/
def VariableDomain.contains (d : VariableDomain) (x ε : α) : Bool :=
  match d with
  | nonnegative | integer => -ε ≤ x
  | nonpositive => x ≤ ε
  | free => true
  | binary => -ε ≤ x && x ≤ 1 + ε

namespace Model

/-! ### Building -/

/-- The first row that does not have `width` coefficients, with its index and length. -/
def firstMisfit (width : Nat) (rows : List (List α)) : Option (Nat × Nat) :=
  (rows.zipIdx.find? fun (row, _) => row.length != width).map fun (row, i) => (i, row.length)

def allFinite (cost : List α) (rows : List (List α)) (rhs : List α) : Bool :=
  (cost ++ rows.flatten ++ rhs).all Scalar.isFinite

/-- Build a model from its parts. Rows are checked in order, then the other lengths, and the numbers last. -/
def ofData (direction : Direction) (cost : List α) (rows : List (List α)) (relations : List Relation)
    (rhs : List α) (domains : List VariableDomain) : Except Error (Model α) :=
  if cost.isEmpty then .error (.malformedModel "the model has no variables")
  else
    match firstMisfit cost.length rows with
    | some (i, found) => .error (.dimensionMismatch s!"constraint {i}" cost.length found)
    | none =>
      if relations.length ≠ rows.length then
        .error (.dimensionMismatch "constraint types" rows.length relations.length)
      else if rhs.length ≠ rows.length then
        .error (.dimensionMismatch "right hand side" rows.length rhs.length)
      else if domains.length ≠ cost.length then
        .error (.dimensionMismatch "sign restrictions" cost.length domains.length)
      else if !allFinite cost rows rhs then
        .error (.malformedModel "the model contains a value that is not finite")
      else
        .ok ⟨direction, cost, domains,
          List.zipWith (fun row (relation, b) => ⟨row, relation, b⟩) rows (relations.zip rhs)⟩

def ofNonnegativeData (direction : Direction) (cost : List α) (rows : List (List α))
    (relations : List Relation) (rhs : List α) : Except Error (Model α) :=
  ofData direction cost rows relations rhs (List.replicate cost.length .nonnegative)

/-! ### Reading -/

def nrVariables (m : Model α) : Nat := m.cost.length

def nrConstraints (m : Model α) : Nat := m.constraints.length

def integerVariables (m : Model α) : List Nat :=
  (List.range m.domains.length).filter fun j => (m.domains.getD j .free).kind == .integer

/-! ### Meaning -/

def objectiveValue (m : Model α) (values : List α) : α := Scalar.dot m.cost values

/-- Whether an assignment satisfies all constraints and lies in all domains, up to `ε`. Integrality is not
asked for. -/
def isFeasible (m : Model α) (values : List α) (ε : α) : Bool :=
  m.constraints.all (·.isSatisfied values ε) &&
    (List.zipWith (fun d x => d.contains x ε) m.domains values).all id

end Model

end LinearProgramming
