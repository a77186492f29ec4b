/-! # Causes of failure

An infeasible or unbounded program is an outcome, not an error. The causes below say why a model cannot be
built, or why an operation on it cannot be carried out or has been stopped by a limit. -/

namespace LinearProgramming

/-- Why an operation failed. Running out of fuel happens only to a search without a node limit. -/
inductive Error where
  | dimensionMismatch (part : String) (expected found : Nat)
  | malformedModel (reason : String)
  | singularBasis
  | basisNotFound (row : Nat)
  | notOptimal
  | pivotLimit (limit : Nat)
  | cutLimit (limit : Nat)
  | variableIndex (index count : Nat)
  | constraintIndex (index count : Nat)
  | notBasic (variableIndex : Nat)
  | notNonBasic (variableIndex : Nat)
  | outOfFuel
  deriving DecidableEq, Repr

def Error.message : Error → String
  | dimensionMismatch part expected found =>
    s!"dimension mismatch in {part}: expected {expected}, found {found}"
  | malformedModel reason => s!"malformed model: {reason}"
  | singularBasis => "basis matrix is singular"
  | basisNotFound row => s!"no basic column found for constraint row {row}"
  | notOptimal => "tableau is not optimal"
  | pivotLimit limit => s!"pivot limit of {limit} reached"
  | cutLimit limit => s!"cut limit of {limit} reached"
  | variableIndex index count => s!"variable index {index} out of range for {count} variables"
  | constraintIndex index count => s!"constraint index {index} out of range for {count} constraints"
  | notBasic index => s!"variable {index} is not basic"
  | notNonBasic index => s!"variable {index} is basic"
  | outOfFuel => "search fuel exhausted"

end LinearProgramming
