import LinearProgramming.Solution

/-! # Fractional variables

Which variables of a canonical form need an integer value, and which of them violate that in a tableau. -/

namespace LinearProgramming

variable {α : Type} [Scalar α]

namespace CanonicalForm

/-- The marked integer variables, or all variables when none is marked. -/
def searchVariables (c : CanonicalForm α) : List Nat :=
  if c.integerVariables.isEmpty then List.range c.nrVariables else c.integerVariables

/-- The variable that a column represents, or a part of. Slack columns represent none. -/
def columnVariable? (c : CanonicalForm α) (j : Nat) : Option Nat := c.placements.findIdx? (·.uses j)

/-- The first row, from the top, whose basic column belongs to one of the given variables with a fractional
value: that variable and its value. -/
def firstFractional? (c : CanonicalForm α) (t : Tableau α) (integers : List Nat) (ε : α) :
    Option (Nat × α) :=
  let values := c.modelValues t.basicSolution
  (((t.basis.filterMap c.columnVariable?).filter integers.contains).map fun j => (j, values.getD j 0)).find?
    fun (_, v) => !Scalar.isIntegral v ε

end CanonicalForm

def Solution.snap (s : Solution α) (integers : List Nat) (ε : α) : Solution α :=
  { s with values := s.values.mapIdx fun j v => if integers.contains j then Scalar.snap v ε else v }

end LinearProgramming
