import LinearProgramming.Model.Basic
import LinearProgramming.Tableau.Basic

/-! # Canonical form

The first tableau of a model, with what is needed to read model values off a later one. In canonical form
every row is an upper bound with a slack column of its own, every column is nonnegative and the objective is
maximised:

* a lower bound row is negated, and an equality becomes an upper and a negated lower bound;
* a nonpositive variable is negated, and a free one is the difference of two columns;
* a binary variable gets a row that bounds it by one.

Columns come in the order: one per variable, the negative parts of the free variables, the slacks. Rows come in
the order: one or two per constraint, then the bounds of the binary variables. Right hand sides may be
negative; the slack columns are the first basis. -/

namespace LinearProgramming

/-- How the columns of a tableau represent a variable of the model: as one column, as the negation of one, or as the
difference of two. -/
inductive Placement where
  | direct (column : Nat)
  | negated (column : Nat)
  | split (positive negative : Nat)
  deriving DecidableEq, Repr

/-- Where a row of the canonical form comes from: a constraint of the model, or one half of it if it is an equality,
or the bound by one of a binary variable. -/
inductive RowSource where
  | constraint (index : Nat) (half : Relation)
  | binaryBound (variableIndex : Nat)
  deriving DecidableEq, Repr

/-- A model as a tableau over nonnegative columns, kept at the slack basis. `nrStructuralColumns` counts the columns
that represented variables when the form was built, and `integerColumns` marks those that are integers in every
integer solution. -/
structure CanonicalForm (α : Type) where
  direction : Direction
  tableau : Tableau α
  nrStructuralColumns : Nat
  placements : List Placement
  rowSources : List RowSource
  nrConstraints : Nat
  integerColumns : List Bool
  integerVariables : List Nat
  deriving DecidableEq

variable {α : Type} [Scalar α]

/-- Factor that the model data of a row was multiplied by. -/
def RowSource.sign : RowSource → α
  | constraint _ half => half.sign
  | binaryBound _ => 1

namespace Placement

/-- The columns of a variable with the factor that maps a coefficient of the variable onto the column. -/
def columns : Placement → List (Nat × α)
  | direct j => [(j, 1)]
  | negated j => [(j, -1)]
  | split p n => [(p, 1), (n, -1)]

def write (row : List α) (v : α) : Placement → List α
  | direct j => row.set j v
  | negated j => row.set j (-v)
  | split p n => (row.set p v).set n (-v)

def read (values : List α) : Placement → α
  | direct j => values.getD j 0
  | negated j => -values.getD j 0
  | split p n => values.getD p 0 - values.getD n 0

def uses (j : Nat) : Placement → Bool
  | direct k | negated k => k == j
  | split p n => p == j || n == j

/-- Placement of each variable: its own index, and for the free ones also the next of the columns that follow
all variables. -/
def ofDomains (domains : List VariableDomain) : List Placement :=
  domains.mapIdx fun j domain =>
    match domain with
    | .nonnegative | .integer | .binary => direct j
    | .nonpositive => negated j
    | .free => split j (domains.length + (domains.take j).count .free)

/-- Coefficients of the variables as a row over the first `width` columns. -/
def spread (placements : List Placement) (width : Nat) (coefficients : List α) : List α :=
  (coefficients.zip placements).foldl (fun row (v, placement) => placement.write row v)
    (List.replicate width 0)

end Placement

namespace CanonicalForm

def dataTolerance : α := 1e-9

/-- Whether the slack of row `i` is an integer whenever the columns marked in `mask` are: the row has integer
data and involves, besides its slack, marked columns only. -/
def hasIntegerSlack (t : Tableau α) (mask : List Bool) (i slack : Nat) : Bool :=
  Scalar.isIntegral (t.rhs i) dataTolerance &&
    (t.row i).zipIdx.all fun (v, j) =>
      j == slack || v == 0 || mask.getD j false && Scalar.isIntegral v dataTolerance

/-- The columns that are integers when the given variables are. Row by row, each slack is decided from the
columns marked so far. -/
def deriveIntegerColumns (t : Tableau α) (placements : List Placement) (integers : List Nat) : List Bool :=
  let structural := integers.foldl
    (fun mask variableIndex =>
      match placements[variableIndex]? with
      | some (.direct j) => mask.set j true
      | _ => mask)
    (List.replicate t.nrColumns false)
  t.basis.zipIdx.foldl (fun mask (slack, i) => mask.set slack (hasIntegerSlack t mask i slack)) structural

/-- The rows of a model over its variables, each with its source and right hand side. -/
def modelRows (m : Model α) : List (RowSource × List α × α) :=
  (m.constraints.zipIdx.flatMap fun (c, i) =>
    c.relation.halves.map fun half => (.constraint i half, c.coefficients, c.rhs)) ++
  ((List.range m.domains.length).filter fun j => m.domains.getD j .free == .binary).map fun j =>
    (.binaryBound j, RowMatrix.unitVector m.nrVariables j, 1)

def ofModel (m : Model α) : CanonicalForm α :=
  let placements := Placement.ofDomains m.domains
  let nrStructural := m.nrVariables + m.domains.count .free
  let rows := modelRows m
  let costRow :=
    (Placement.spread placements nrStructural m.cost).map (-m.direction.sign * ·) ++
      List.replicate (rows.length + 1) 0
  let constraintRows := rows.mapIdx fun i (source, coefficients, rhs) =>
    (Placement.spread placements nrStructural coefficients).map (source.sign * ·) ++
      RowMatrix.unitVector rows.length i ++ [source.sign * rhs]
  let tableau := Tableau.ofMatrix (RowMatrix.ofRows (costRow :: constraintRows))
    ((List.range rows.length).map (nrStructural + ·))
  { direction := m.direction
    tableau
    nrStructuralColumns := nrStructural
    placements
    rowSources := rows.map (·.1)
    nrConstraints := m.nrConstraints
    integerColumns := deriveIntegerColumns tableau placements m.integerVariables
    integerVariables := m.integerVariables }

/-! ### Reading -/

def nrRows (c : CanonicalForm α) : Nat := c.rowSources.length

def nrColumns (c : CanonicalForm α) : Nat := c.tableau.nrColumns

def nrVariables (c : CanonicalForm α) : Nat := c.placements.length

def slackColumn (c : CanonicalForm α) (i : Nat) : Nat := c.tableau.basis.getD i 0

def canonicalCoefficients (c : CanonicalForm α) (coefficients : List α) : List α :=
  Placement.spread c.placements c.nrColumns coefficients

def modelValues (c : CanonicalForm α) (columnValues : List α) : List α :=
  c.placements.map (·.read columnValues)

/-- Cost of each column in the maximisation. -/
def canonicalCost (c : CanonicalForm α) : List α := c.tableau.relativeCosts.map (-·)

def objectiveValue (c : CanonicalForm α) (tableauValue : α) : α := c.direction.sign * tableauValue

/-- The rows of a constraint, each with the factor its data was multiplied by. -/
def constraintRows (c : CanonicalForm α) (index : Nat) : List (Nat × α) :=
  c.rowSources.zipIdx.filterMap fun (source, i) =>
    match source with
    | .constraint k half => if k == index then some (i, half.sign) else none
    | .binaryBound _ => none

/-- The columns that are integers when all variables are. -/
def pureIntegerColumns (c : CanonicalForm α) : List Bool :=
  deriveIntegerColumns c.tableau c.placements (List.range c.nrVariables)

def variableKind (c : CanonicalForm α) (variableIndex : Nat) : VariableKind :=
  if c.integerVariables.contains variableIndex then .integer else .continuous

def isPureInteger (c : CanonicalForm α) : Bool := c.integerVariables.length == c.nrVariables

end CanonicalForm

end LinearProgramming
