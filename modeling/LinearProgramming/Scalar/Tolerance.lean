import LinearProgramming.Scalar.Basic

/-! # Decisions up to a tolerance

Every test for a zero, a sign or an integer goes through the definitions below, so that the tolerance is
always an explicit argument. -/

namespace LinearProgramming.Scalar

variable {α : Type} [Scalar α]

def isZero (v ε : α) : Bool := abs v ≤ ε

def isNegative (v ε : α) : Bool := v < -ε

def isPositive (v ε : α) : Bool := ε < v

def isIntegral (v ε : α) : Bool := abs (v - round v) ≤ ε

/-- The part of `v` above its floor. It is zero for a value within `ε` of an integer, so that a value just
below an integer does not get a fraction of almost one. -/
def fractionalPart (v ε : α) : α := if isIntegral v ε then 0 else v - floor v

def snap (v ε : α) : α := if isIntegral v ε then round v else v

/-- First candidate with a minimal value. A later candidate replaces an earlier one unless its value is at
least the earlier value less `ε`, so near ties go to the candidate that is listed first. -/
def firstMinimum (candidates : List (Nat × α)) (ε : α) : Option (Nat × α) :=
  candidates.foldl
    (fun best candidate =>
      match best with
      | none => some candidate
      | some least => if least.2 - ε ≤ candidate.2 then some least else some candidate)
    none

end LinearProgramming.Scalar
