import LinearProgramming.Model.Vocabulary
import LinearProgramming.Tableau.Basic

/-! # Extending a tableau

New constraints and columns for a tableau at any basis, and overwriting of single entries. -/

namespace LinearProgramming.Tableau

variable {α : Type} [Scalar α]

/-! ### Constraints -/

/-- Clear the basic column of one constraint row from a new row, unless its entry is zero already. -/
def clearBasic (newRow : List α) (basicColumn : Nat) (constraintRow : List α) : List α :=
  let factor := newRow.getD basicColumn 0
  if factor == 0 then newRow
  else (List.zipWith (fun v e => v - factor * e) newRow constraintRow).set basicColumn 0

/-- Append the row `sign * coefficients` with right hand side `sign * rhs` and a slack column of its own, which
is basic in it. Missing trailing coefficients are zero. The row is expressed in the current basis, row by row
from the top. -/
def addInequality (t : Tableau α) (coefficients : List α) (sign rhs : α) : Tableau α :=
  let slack := t.nrColumns
  let widened := t.matrix.insertColumn slack (List.replicate t.matrix.nrRows 0)
  let structural := coefficients.map (sign * ·) ++ List.replicate (slack - coefficients.length) 0
  let newRow := structural ++ [1, sign * rhs]
  let reduced := (t.basis.zip (widened.rows.drop 1)).foldl (fun r (j, row) => clearBasic r j row) newRow
  { matrix := widened.pushRow reduced
    basis := t.basis ++ [slack]
    basicMask := t.basicMask ++ [true] }

def addConstraint (t : Tableau α) (coefficients : List α) (relation : Relation) (rhs : α) : Tableau α :=
  relation.halves.foldl (fun t half => t.addInequality coefficients half.sign rhs) t

/-! ### Columns and entries -/

/-- Append a column that is not basic: its relative cost, then its entry in each constraint row. -/
def addColumn (t : Tableau α) (values : List α) : Tableau α :=
  { t with
    matrix := t.matrix.insertColumn t.nrColumns values
    basicMask := t.basicMask ++ [false] }

def setEntry (t : Tableau α) (i j : Nat) (v : α) : Tableau α :=
  { t with matrix := t.matrix.setEntry (i + 1) j v }

def setRelativeCost (t : Tableau α) (j : Nat) (v : α) : Tableau α :=
  { t with matrix := t.matrix.setEntry 0 j v }

def setRhs (t : Tableau α) (i : Nat) (v : α) : Tableau α :=
  { t with matrix := t.matrix.setEntry (i + 1) t.nrColumns v }

end LinearProgramming.Tableau
