import LinearProgramming.Knapsack.Search
import LinearProgramming.Text.Trail

/-! # Text of knapsack nodes -/

namespace LinearProgramming

def Decimal.cells (first second third : String) : String :=
  padLeft 10 first ++ " " ++ padLeft 10 second ++ " " ++ padLeft 10 third ++ "\n"

/-- The node, a table of the items considered, and the bound that the relaxation gives. Items are counted from
one. -/
def KnapsackIteration.render (iteration : KnapsackIteration Float) : String :=
  "node " ++ Nat.repr iteration.node ++ "\n" ++ Decimal.cells "variable" "in/out" "remainder" ++
    String.join (iteration.rows.map fun row =>
      Decimal.cells ("x" ++ Nat.repr (row.item + 1)) (Decimal.fixed 3 row.amount)
        (Decimal.fixed 3 row.remainder)) ++
    match iteration.objectiveValue with
    | some bound => "bound " ++ Decimal.fixed 3 bound ++ "\n"
    | none => "infeasible\n"

end LinearProgramming
