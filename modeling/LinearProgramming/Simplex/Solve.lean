import LinearProgramming.Simplex.Dual
import LinearProgramming.Simplex.Primal

/-! # Solving linear programs

A tableau is solved in two phases: dual pivots make the basic solution feasible, primal pivots make it optimal. -/

namespace LinearProgramming

variable {α : Type} [Scalar α]

/-- Solve a tableau at any basis. The primal phase runs only if the dual phase found a feasible solution. -/
def Tableau.solve (t : Tableau α) (s : Session α) : Run α :=
  let feasible := t.dual s
  match feasible.result with
  | .ok (.optimal _) => feasible.tableau.primal .steepest feasible.session
  | _ => feasible

def CanonicalForm.solve (c : CanonicalForm α) (s : Session α) :
    Except Error (Outcome (Solution α)) × Session α :=
  let run := c.tableau.solve (s.record .initial c.tableau)
  (run.result.map (·.map (c.solution run.tableau)), run.session)

/-- Solve a model without regard to integrality. -/
def Model.solveRelaxation (m : Model α) (s : Session α) :
    Except Error (Outcome (Solution α)) × Session α :=
  (CanonicalForm.ofModel m).solve s

end LinearProgramming
