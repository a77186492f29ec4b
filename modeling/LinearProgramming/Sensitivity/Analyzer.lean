import LinearProgramming.BasisInverse
import LinearProgramming.Sensitivity.Interval
import LinearProgramming.Simplex.Solve

/-! # Analysis of an optimum

An analyzer holds an optimal tableau together with the inverse of its basis matrix, and answers how the optimum
depends on the data: shadow prices, ranges in which the basis stays optimal, and duality.

With `x_B = B⁻¹ b`, `y = c_B B⁻¹` and `d_j = y a_j - c_j`, the basis is optimal as long as `x_B ≥ 0` and `d ≥ 0`.
A change of one value of the model changes one of these vectors linearly. -/

namespace LinearProgramming

/-- A problem in canonical form with all changes made so far, its current tableau, and the basis of that tableau
relative to the tableau of the canonical form. -/
structure Analyzer (α : Type) where
  canonical : CanonicalForm α
  tableau : Tableau α
  basis : BasisInverse α
  tolerances : Tolerances α
  deriving DecidableEq

/-- The range of a value of the model in which the basis stays optimal: the value now, the conditions on its change,
and the changes that satisfy all of them. -/
structure RangeReport (α : Type) where
  current : α
  conditions : List (Condition α)
  interval : Interval α
  deriving DecidableEq

/-- Relation between the objective values of a problem and its dual, strong if the prices are feasible and both values
agree. -/
inductive Duality (α : Type) where
  | strong
  | weak (gap : α)
  deriving DecidableEq

structure DualityReport (α : Type) where
  primalObjective : α
  dualObjective : α
  dualFeasible : Bool
  duality : Duality α
  deriving DecidableEq

variable {α : Type} [Scalar α]

def RangeReport.ofConditions (current : α) (conditions : List (Condition α)) (ε : α) : RangeReport α :=
  ⟨current, conditions, .ofConditions conditions ε⟩

/-- The range of the value itself, rather than of its change. -/
def RangeReport.valueInterval (r : RangeReport α) : Interval α := r.interval.shift r.current

namespace Analyzer

/-! ### Building -/

/-- Analyze a tableau of a canonical form, to which nothing has been appended. It has to be optimal. -/
def ofTableau (canonical : CanonicalForm α) (t : Tableau α) (tolerances : Tolerances α) :
    Except Error (Analyzer α) :=
  if t.nrRows ≠ canonical.nrRows then
    .error (.dimensionMismatch "tableau rows" canonical.nrRows t.nrRows)
  else if t.nrColumns ≠ canonical.nrColumns then
    .error (.dimensionMismatch "tableau columns" canonical.nrColumns t.nrColumns)
  else if !t.isOptimal tolerances.general then .error .notOptimal
  else
    (BasisInverse.ofTableau t canonical.tableau tolerances.unit tolerances.general).map
      (⟨canonical, t, ·, tolerances⟩)

def ofModel (m : Model α) (s : Session α) : Except Error (Outcome (Analyzer α)) × Session α :=
  let canonical := CanonicalForm.ofModel m
  let run := canonical.tableau.solve (s.record .initial canonical.tableau)
  match run.result with
  | .error e => (.error e, run.session)
  | .ok .infeasible => (.ok .infeasible, run.session)
  | .ok .unbounded => (.ok .unbounded, run.session)
  | .ok (.optimal _) =>
    ((ofTableau canonical run.tableau s.settings.tolerances).map .optimal, run.session)

/-! ### The optimum -/

def objectiveValue (a : Analyzer α) : α := a.canonical.objectiveValue a.tableau.objectiveValue

def values (a : Analyzer α) : List α := a.canonical.modelValues a.tableau.basicSolution

/-- Shadow price of each row of the canonical form. -/
def shadowPrices (a : Analyzer α) : List α := a.basis.shadowPrices a.canonical.canonicalCost

def combinedPrice (prices : List α) (rows : List (Nat × α)) : α :=
  Scalar.sum (rows.map fun (i, sign) => sign * prices.getD i 0)

/-- Shadow price of each constraint, in the direction of the model: the rate at which the objective value changes
with the right hand side. -/
def constraintPrices (a : Analyzer α) : List α :=
  let prices := a.shadowPrices
  (List.range a.canonical.nrConstraints).map fun index =>
    a.canonical.direction.sign * combinedPrice prices (a.canonical.constraintRows index)

def duality (a : Analyzer α) : DualityReport α :=
  let ε := a.tolerances.general
  let prices := a.shadowPrices
  let dualObjective := a.canonical.direction.sign * Scalar.dot prices a.canonical.tableau.rhsValues
  let dualFeasible := prices.all (!Scalar.isNegative · ε) && a.tableau.isDualFeasible ε
  let gap := Scalar.abs (a.objectiveValue - dualObjective)
  ⟨a.objectiveValue, dualObjective, dualFeasible,
    if dualFeasible && Scalar.isZero gap ε then .strong else .weak gap⟩

/-! ### Looking up -/

/-- The column of a variable with its factor. A free variable has two columns, for which there is no single
answer. -/
def variableColumn (a : Analyzer α) (variableIndex : Nat) : Except Error (Nat × α) :=
  match a.canonical.placements[variableIndex]? with
  | none => .error (.variableIndex variableIndex a.canonical.nrVariables)
  | some (.direct j) => .ok (j, 1)
  | some (.negated j) => .ok (j, -1)
  | some (.split _ _) =>
    .error (.malformedModel s!"free variable {variableIndex} is represented by two columns")

def rowsOf (a : Analyzer α) (index : Nat) : Except Error (List (Nat × α)) :=
  if index < a.canonical.nrConstraints then .ok (a.canonical.constraintRows index)
  else .error (.constraintIndex index a.canonical.nrConstraints)

def checkOptimal (a : Analyzer α) : Except Error Unit :=
  if a.tableau.isOptimal a.tolerances.general then .ok () else .error .notOptimal

def currentCost (a : Analyzer α) (column : Nat) (factor : α) : α :=
  a.canonical.direction.sign * factor * a.canonical.canonicalCost.getD column 0

/-! ### Ranges -/

/-- Range of the cost of a variable that is not basic: only its own relative cost changes. -/
def nonBasicCostRange (a : Analyzer α) (variableIndex : Nat) : Except Error (RangeReport α) := do
  a.checkOptimal
  let (column, factor) ← a.variableColumn variableIndex
  if a.tableau.isBasic column then .error (.notNonBasic variableIndex)
  else
    .ok (.ofConditions (a.currentCost column factor)
      [⟨a.tableau.relativeCost column, -a.canonical.direction.sign * factor⟩] a.tolerances.general)

/-- Range of the cost of a basic variable: each relative cost changes with the entry in the row of the variable. -/
def basicCostRange (a : Analyzer α) (variableIndex : Nat) : Except Error (RangeReport α) := do
  a.checkOptimal
  let (column, factor) ← a.variableColumn variableIndex
  match a.tableau.basisRow? column with
  | none => .error (.notBasic variableIndex)
  | some row =>
    let involved := a.tableau.nonBasicColumns.filter fun k =>
      !Scalar.isZero (a.tableau.entry row k) a.tolerances.general
    .ok (.ofConditions (a.currentCost column factor)
      (involved.map fun k =>
        ⟨a.tableau.relativeCost k, a.canonical.direction.sign * factor * a.tableau.entry row k⟩)
      a.tolerances.general)

def costRange (a : Analyzer α) (variableIndex : Nat) : Except Error (RangeReport α) := do
  let (column, _) ← a.variableColumn variableIndex
  if a.tableau.isBasic column then a.basicCostRange variableIndex else a.nonBasicCostRange variableIndex

/-- Rate at which the basic values change with the right hand side of a constraint that has the given rows. -/
def rhsRates (a : Analyzer α) (rows : List (Nat × α)) : List α :=
  rows.foldl
    (fun total (i, sign) => List.zipWith (· + ·) total ((a.basis.inverse.column i).map (sign * ·)))
    (List.replicate a.tableau.nrRows 0)

/-- Range of the right hand side of a constraint: the basic values change with columns of the inverse. -/
def rhsRange (a : Analyzer α) (index : Nat) : Except Error (RangeReport α) := do
  a.checkOptimal
  let rows ← a.rowsOf index
  let (firstRow, sign) := rows.headD (0, 1)
  .ok (.ofConditions (sign * a.canonical.tableau.rhs firstRow)
    (List.zipWith (fun v rate => ⟨v, rate⟩) a.tableau.rhsValues (a.rhsRates rows)) a.tolerances.general)

/-- Range of the coefficient of a variable that is not basic: its relative cost changes with the price of the
constraint. -/
def coefficientRange (a : Analyzer α) (index variableIndex : Nat) : Except Error (RangeReport α) := do
  a.checkOptimal
  let rows ← a.rowsOf index
  let (column, factor) ← a.variableColumn variableIndex
  if a.tableau.isBasic column then .error (.notNonBasic variableIndex)
  else
    let (firstRow, sign) := rows.headD (0, 1)
    .ok (.ofConditions (sign * factor * a.canonical.tableau.entry firstRow column)
      [⟨a.tableau.relativeCost column, factor * combinedPrice a.shadowPrices rows⟩] a.tolerances.general)

end Analyzer

end LinearProgramming
