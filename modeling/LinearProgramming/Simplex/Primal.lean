import LinearProgramming.Simplex.Entering
import LinearProgramming.Simplex.Run
import LinearProgramming.Tableau.Pivot

/-! # Primal simplex method

From a feasible basic solution to a better one, until no relative cost is negative. After a number of successive
pivots that left the objective unchanged, the smallest index decides about the entering column and the leaving
row, until the objective changes again. -/

namespace LinearProgramming.Tableau

variable {α : Type} [Scalar α]

/-- The next primal move. With `smallestIndex` the entering rule is overridden. -/
def primalMove (t : Tableau α) (rule : EnteringRule) (smallestIndex : Bool) (ε : α) : Move (List α) :=
  match (if smallestIndex then .firstProfitable else rule).select? t.nonBasicCosts ε with
  | none => .stop (.optimal t.basicSolution)
  | some (column, _) =>
    match if smallestIndex then t.primalRowByLowestBasic? column ε else t.primalRow? column ε with
    | none => .stop .unbounded
    | some row => .pivot row column

/-- At most `remaining` primal pivots, after `degenerate` successive pivots without a change of the objective.
The limit counts only once another pivot is due. -/
def primalLoop (rule : EnteringRule) (remaining degenerate : Nat) (t : Tableau α) (s : Session α) : Run α :=
  match t.primalMove rule (s.settings.maxDegeneratePivots ≤ degenerate) s.tolerance with
  | .stop outcome => ⟨.ok outcome, t, s⟩
  | .pivot row column =>
    match remaining with
    | 0 => ⟨.error (.pivotLimit s.settings.maxPivots), t, s⟩
    | remaining + 1 =>
      let next := t.pivot column row
      let unchanged := Scalar.isZero (next.objectiveValue - t.objectiveValue) s.tolerance
      primalLoop rule remaining (if unchanged then degenerate + 1 else 0) next
        (s.recordPivot (.primalPivot row column) next)

def primal (t : Tableau α) (rule : EnteringRule) (s : Session α) : Run α :=
  primalLoop rule s.settings.maxPivots 0 t s

end LinearProgramming.Tableau
