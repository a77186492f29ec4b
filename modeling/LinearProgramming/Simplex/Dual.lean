import LinearProgramming.Simplex.Run
import LinearProgramming.Tableau.Pivot

/-! # Dual simplex method

Makes all right hand sides nonnegative. The row with the most negative right hand side leaves; the column that
enters is the one that keeps the relative costs nonnegative, if they are. -/

namespace LinearProgramming.Tableau

variable {α : Type} [Scalar α]

/-- The next dual move. A row that no column can repair proves that there is no solution. -/
def dualMove (t : Tableau α) (ε : α) : Move (List α) :=
  match t.dualRow? ε with
  | none => .stop (.optimal t.basicSolution)
  | some row =>
    match t.dualColumn? row ε with
    | none => .stop .infeasible
    | some column => .pivot row column

/-- At most `remaining` dual pivots. The limit counts only once another pivot is due. -/
def dualLoop (remaining : Nat) (t : Tableau α) (s : Session α) : Run α :=
  match t.dualMove s.tolerance with
  | .stop outcome => ⟨.ok outcome, t, s⟩
  | .pivot row column =>
    match remaining with
    | 0 => ⟨.error (.pivotLimit s.settings.maxPivots), t, s⟩
    | remaining + 1 =>
      let next := t.pivot column row
      dualLoop remaining next (s.recordPivot (.dualPivot row column) next)

/-- Pivot until the basic solution is feasible. It need not be optimal then. -/
def dual (t : Tableau α) (s : Session α) : Run α := dualLoop s.settings.maxPivots t s

end LinearProgramming.Tableau
