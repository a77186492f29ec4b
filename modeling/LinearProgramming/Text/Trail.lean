import LinearProgramming.Decimal.Fixed
import LinearProgramming.Decimal.Layout
import LinearProgramming.Session

/-! # Text of tableaus and recorded steps

Entries of a matrix stand in cells of ten characters with three places; numbers in the description of a step are
written exactly. -/

namespace LinearProgramming

def Decimal.cell (x : Float) : String := padLeft 10 (fixed 3 x)

def RowMatrix.render (M : RowMatrix Float) : String :=
  String.join (M.rows.map fun row => String.join (row.map Decimal.cell) ++ "\n")

def Tableau.render (t : Tableau Float) : String :=
  "basis: [" ++ ", ".intercalate (t.basis.map Nat.repr) ++ "]\n" ++ t.matrix.render

def NodeOutcome.render : NodeOutcome Float → String
  | infeasible => "Infeasible"
  | unbounded => "Unbounded"
  | dominated => "Dominated"
  | integral objective => "Integral \x7b objective_value: " ++ Decimal.Layout.exact.render objective ++ " \x7d"
  | branched variableIndex v =>
    "Branched \x7b variable: " ++ Nat.repr variableIndex ++ ", value: " ++ Decimal.Layout.exact.render v ++
      " \x7d"

def Event.render : Event Float → String
  | initial => "initial tableau"
  | primalPivot row column => s!"primal pivot on row {row}, column {column}"
  | dualPivot row column => s!"dual pivot on row {row}, column {column}"
  | cut sourceRow => s!"cut from row {sourceRow}"
  | node id depth outcome => s!"node {id} at depth {depth}: " ++ outcome.render

def Record.render (r : Record Float) : String := r.event.render ++ "\n" ++ r.tableau.render

end LinearProgramming
