import LinearProgramming.Integer.Fractional
import LinearProgramming.Simplex.Solve
import LinearProgramming.Tableau.Extend

/-! # Fractional cutting planes

When a row of an optimal tableau has an integer basic column and a fractional right hand side, every integer
solution satisfies the inequality between the fractional parts of that row, and the basic solution does not.
Such cuts are appended and the tableau is solved again, until all values are integers. -/

namespace LinearProgramming

/-- A cut `coefficients · x ≥ rhs`, with the constraint row it was read from. -/
structure Cut (α : Type) where
  sourceRow : Nat
  coefficients : List α
  rhs : α
  deriving DecidableEq

structure CutReport (α : Type) where
  outcome : Outcome (Solution α)
  nrCuts : Nat
  deriving DecidableEq

variable {α : Type} [Scalar α]

/-- The cut of the first row with an integer basic column and a fractional right hand side. -/
def Tableau.cut? (t : Tableau α) (integerColumns : List Bool) (ε : α) : Option (Cut α) :=
  ((List.range t.nrRows).find? fun i =>
    integerColumns.getD (t.basis.getD i 0) false &&
      Scalar.isPositive (Scalar.fractionalPart (t.rhs i) ε) ε).map fun i =>
    ⟨i, (t.row i).map (Scalar.fractionalPart · ε), Scalar.fractionalPart (t.rhs i) ε⟩

def Tableau.addCut (t : Tableau α) (cut : Cut α) : Tableau α :=
  t.addConstraint cut.coefficients .greater cut.rhs

namespace CanonicalForm

/-- The columns that every integer solution gives integer values. Cutting planes need this of all columns: all
variables must be integer, and so must the data. -/
def cutColumns (c : CanonicalForm α) : Except Error (List Bool) :=
  if !c.integerVariables.isEmpty && !c.isPureInteger then
    .error (.malformedModel "cutting planes need all variables to be integer")
  else
    let columns := if c.integerVariables.isEmpty then c.pureIntegerColumns else c.integerColumns
    if columns.all id then .ok columns
    else .error (.malformedModel "cutting planes need all model data to be integer")

/-- Solve, cut, and go on with at most `remaining` further cuts. The limit counts only once another cut is due. -/
def cutLoop (c : CanonicalForm α) (remaining nrCuts : Nat) (integerColumns : List Bool) (t : Tableau α)
    (s : Session α) : Except Error (CutReport α) × Session α :=
  let run := t.solve s
  match run.result with
  | .error e => (.error e, run.session)
  | .ok .infeasible => (.ok ⟨.infeasible, nrCuts⟩, run.session)
  | .ok .unbounded => (.ok ⟨.unbounded, nrCuts⟩, run.session)
  | .ok (.optimal values) =>
    match run.tableau.cut? integerColumns s.tolerance with
    | none =>
      let solution := (c.solution run.tableau values).snap (List.range c.nrVariables) s.tolerance
      (.ok ⟨.optimal solution, nrCuts⟩, run.session)
    | some cut =>
      match remaining with
      | 0 => (.error (.cutLimit s.settings.maxCuts), run.session)
      | remaining + 1 =>
        let next := run.tableau.addCut cut
        c.cutLoop remaining (nrCuts + 1) (integerColumns ++ [true]) next
          (run.session.record (.cut cut.sourceRow) next)

/-- Solve a pure integer program by cutting planes. A model without integer variables counts as one in which all
variables are. -/
def cuttingPlane (c : CanonicalForm α) (s : Session α) : Except Error (CutReport α) × Session α :=
  match c.cutColumns with
  | .error e => (.error e, s)
  | .ok columns => c.cutLoop s.settings.maxCuts 0 columns c.tableau (s.record .initial c.tableau)

end CanonicalForm

end LinearProgramming
