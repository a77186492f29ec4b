import LinearProgramming.CanonicalForm.Edit
import LinearProgramming.Sensitivity.Analyzer

/-! # Changes to an analyzed problem

Each change is applied to the canonical form, after which the tableau is solved again from the last basis. What
has been changed stays changed also when the solve fails. -/

namespace LinearProgramming

/-- The result of a change, with the analyzer and the session as the change left them. -/
structure Changed (α : Type) where
  result : Except Error (Outcome (Solution α))
  analyzer : Analyzer α
  session : Session α

variable {α : Type} [Scalar α]

namespace Analyzer

def rebuild (a : Analyzer α) : Analyzer α :=
  { a with tableau := a.basis.tableau a.canonical.tableau a.canonical.canonicalCost }

/-- Solve the current tableau and invert its basis anew. If the solve fails, the basis stays as it was. -/
def reoptimize (a : Analyzer α) (s : Session α) : Changed α :=
  let run := a.tableau.solve (s.record .initial a.tableau)
  let solved := { a with tableau := run.tableau }
  match run.result with
  | .error e => ⟨.error e, solved, run.session⟩
  | .ok outcome =>
    match BasisInverse.ofColumns a.canonical.tableau run.tableau.basis a.tolerances.general with
    | .error e => ⟨.error e, solved, run.session⟩
    | .ok basis =>
      ⟨.ok (outcome.map (a.canonical.solution run.tableau)), { solved with basis }, run.session⟩

/-- A change that cannot be made leaves everything as it is. -/
def refuse (a : Analyzer α) (s : Session α) (e : Error) : Changed α := ⟨.error e, a, s⟩

def changeCost (a : Analyzer α) (variableIndex : Nat) (cost : α) (s : Session α) : Changed α :=
  match a.variableColumn variableIndex with
  | .error e => a.refuse s e
  | .ok _ => { a with canonical := a.canonical.setCost variableIndex cost }.rebuild.reoptimize s

def changeRhs (a : Analyzer α) (index : Nat) (rhs : α) (s : Session α) : Changed α :=
  match a.rowsOf index with
  | .error e => a.refuse s e
  | .ok _ => { a with canonical := a.canonical.setRhs index rhs }.rebuild.reoptimize s

def changeCoefficient (a : Analyzer α) (index variableIndex : Nat) (v : α) (s : Session α) : Changed α :=
  match a.rowsOf index with
  | .error e => a.refuse s e
  | .ok _ =>
    match a.variableColumn variableIndex with
    | .error e => a.refuse s e
    | .ok (column, _) =>
      if a.tableau.isBasic column then a.refuse s (.notNonBasic variableIndex)
      else { a with canonical := a.canonical.setCoefficient index variableIndex v }.rebuild.reoptimize s

/-- Add a nonnegative variable with the given cost and coefficients. Its column is brought into the current basis
before the tableau is solved. -/
def addActivity (a : Analyzer α) (cost : α) (coefficients : List α) (s : Session α) : Changed α :=
  if coefficients.length ≠ a.canonical.nrConstraints then
    a.refuse s (.dimensionMismatch "activity" a.canonical.nrConstraints coefficients.length)
  else
    let column := a.canonical.nrColumns
    let extended := { a with canonical := a.canonical.addVariable cost coefficients }
    let entries := extended.canonical.tableau.column column
    let relativeCost := BasisInverse.relativeCost extended.shadowPrices entries
      (extended.canonical.canonicalCost.getD column 0)
    { extended with
      tableau := a.tableau.addColumn (relativeCost :: a.basis.transform entries) }.reoptimize s

/-- Add a constraint. Its rows are expressed in the current basis before the tableau is solved. -/
def addConstraint (a : Analyzer α) (coefficients : List α) (relation : Relation) (rhs : α) (s : Session α) :
    Changed α :=
  if coefficients.length ≠ a.canonical.nrVariables then
    a.refuse s (.dimensionMismatch "constraint" a.canonical.nrVariables coefficients.length)
  else
    let row := a.canonical.canonicalCoefficients coefficients
    { a with
      canonical := a.canonical.addConstraint coefficients relation rhs
      tableau := a.tableau.addConstraint row relation rhs }.reoptimize s

end Analyzer

end LinearProgramming
