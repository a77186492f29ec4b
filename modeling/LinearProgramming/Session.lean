import LinearProgramming.Settings
import LinearProgramming.Tableau.Basic

/-! # Sessions

A session is all state of a solve besides the tableau: the settings, the number of pivots made and the trail of
recorded steps. Each algorithm takes a session and returns it with its own steps added. -/

namespace LinearProgramming

/-- How a node of a branch and bound search was resolved. A dominated one does not improve on the best integer
solution so far, and a branched one got two children. -/
inductive NodeOutcome (α : Type) where
  | infeasible
  | unbounded
  | dominated
  | integral (objectiveValue : α)
  | branched (variableIndex : Nat) (value : α)
  deriving DecidableEq

/-- A step of an algorithm: the start of a run, a pivot on a constraint row and an entering column, a cut read from a
constraint row, or a search node at a depth of so many branching rows. -/
inductive Event (α : Type) where
  | initial
  | primalPivot (row column : Nat)
  | dualPivot (row column : Nat)
  | cut (sourceRow : Nat)
  | node (id depth : Nat) (outcome : NodeOutcome α)
  deriving DecidableEq

/-- A step with the tableau right after it. -/
structure Record (α : Type) where
  event : Event α
  tableau : Tableau α
  deriving DecidableEq

structure Session (α : Type) where
  settings : Settings α
  trail : Array (Record α)
  nrPivots : Nat
  deriving DecidableEq

namespace Session

variable {α : Type}

def start (settings : Settings α) : Session α := ⟨settings, #[], 0⟩

/-- Add a step to the trail, if the settings ask for recording. -/
def record (s : Session α) (event : Event α) (t : Tableau α) : Session α :=
  if s.settings.recordIterations then { s with trail := s.trail.push ⟨event, t⟩ } else s

def recordPivot (s : Session α) (event : Event α) (t : Tableau α) : Session α :=
  { s with nrPivots := s.nrPivots + 1 }.record event t

def clearTrail (s : Session α) : Session α := { s with trail := #[] }

def tolerance (s : Session α) : α := s.settings.tolerances.general

end Session

end LinearProgramming
