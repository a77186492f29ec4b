import LinearProgramming.BasisInverse
import LinearProgramming.Simplex.Entering
import LinearProgramming.Simplex.Run

/-! # Revised simplex method

A primal simplex method that keeps only the inverse of the basis matrix and computes from it the relative costs,
the entering column and the basic values when they are needed. The whole tableau is built only for the record
and for the result. -/

namespace LinearProgramming

variable {α : Type} [Scalar α]

namespace Revised

def basicValues (first : Tableau α) (b : BasisInverse α) : List α := b.transform first.rhsValues

def nonBasicCosts (first : Tableau α) (cost : List α) (b : BasisInverse α) : List (Nat × α) :=
  let prices := b.shadowPrices cost
  (b.nonBasicColumns first.nrColumns).map fun j =>
    (j, BasisInverse.relativeCost prices (first.column j) (cost.getD j 0))

def primalRow? (values columnValues : List α) (ε : α) : Option Nat :=
  (Scalar.firstMinimum
    ((columnValues.zipIdx.filter fun (v, _) => Scalar.isPositive v ε).map fun (v, i) =>
      (i, Scalar.maximum (values.getD i 0) 0 / v))
    ε).map (·.1)

def basicSolution (first : Tableau α) (b : BasisInverse α) : List α :=
  (b.columns.zip (basicValues first b)).foldl (fun values (j, v) => values.set j v)
    (List.replicate first.nrColumns 0)

/-- The next move. An optimum comes with its tableau. -/
def move (rule : EnteringRule) (first : Tableau α) (cost : List α) (b : BasisInverse α) (ε : α) :
    Move (Tableau α × List α) :=
  match rule.select? (nonBasicCosts first cost b) ε with
  | none => .stop (.optimal (b.tableau first cost, basicSolution first b))
  | some (column, _) =>
    match primalRow? (basicValues first b) (b.transform (first.column column)) ε with
    | none => .stop .unbounded
    | some row => .pivot row column

/-- At most `remaining` pivots. The limit counts only once another pivot is due. -/
def loop (rule : EnteringRule) (first : Tableau α) (cost : List α) (remaining : Nat) (b : BasisInverse α)
    (s : Session α) : Except Error (Outcome (Tableau α × List α)) × Session α :=
  match move rule first cost b s.tolerance with
  | .stop outcome => (.ok outcome, s)
  | .pivot row column =>
    match remaining with
    | 0 => (.error (.pivotLimit s.settings.maxPivots), s)
    | remaining + 1 =>
      let next := b.change row column (b.transform (first.column column))
      loop rule first cost remaining next
        (s.recordPivot (.primalPivot row column) (next.tableau first cost))

end Revised

/-- Solve a canonical form whose slack basis is feasible. The optimum is given as its tableau and the value of
each column. -/
def CanonicalForm.solveRevised (c : CanonicalForm α) (rule : EnteringRule) (s : Session α) :
    Except Error (Outcome (Tableau α × List α)) × Session α :=
  if c.tableau.rhsValues.any (Scalar.isNegative · s.tolerance) then
    (.error (.malformedModel "the revised simplex method needs a nonnegative right hand side"), s)
  else
    Revised.loop rule c.tableau c.canonicalCost s.settings.maxPivots (.identity c.tableau.basis) s

end LinearProgramming
