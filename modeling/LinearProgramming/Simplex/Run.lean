import LinearProgramming.Error
import LinearProgramming.Session
import LinearProgramming.Solution

/-! # Simplex runs

What the simplex methods share: a method looks at a tableau and either stops or pivots, and a run ends with a
result, the last tableau and the session. The tableau is kept also when the pivot limit ends the run. -/

namespace LinearProgramming

inductive Move (β : Type) where
  | stop (outcome : Outcome β)
  | pivot (row column : Nat)

/-- How a simplex run ended. An optimum is given as the value of each column. -/
structure Run (α : Type) where
  result : Except Error (Outcome (List α))
  tableau : Tableau α
  session : Session α

end LinearProgramming
