import LinearProgramming.Error
import LinearProgramming.RowMatrix.Basic

/-! # Elimination and inversion

`eliminate` is the one row transformation behind pivoting, basis changes and inversion: given a column of
values it makes that column the unit vector of a row, by scaling the row and subtracting its multiples from
all others. The inverse is what the same eliminations make of the identity. -/

namespace LinearProgramming.RowMatrix

variable {α : Type} [Scalar α]

/-- Scale row `r` by the reciprocal of `values[r]`, then clear `values[i]` from each other row `i`. Rows
whose value is zero are left as they are. -/
def eliminate (M : RowMatrix α) (r : Nat) (values : List α) : RowMatrix α :=
  let pivotRow := (M.row r).map (· * (1 / values.getD r 0))
  { M with
    rows := M.rows.mapIdx fun i current =>
      if i == r then pivotRow
      else if values.getD i 0 == 0 then current
      else addMultiple (-values.getD i 0) pivotRow current }

/-- The first row from `k` on with the largest absolute value in column `k`, with that value. Starting below
every absolute value, `(k, -1)` remains only when no row compares larger. -/
def largestBelow (M : RowMatrix α) (k : Nat) : Nat × α :=
  ((List.range' k (M.nrRows - k)).map fun i => (i, Scalar.abs (M.entry i k))).foldl
    (fun best candidate => if best.2 < candidate.2 then candidate else best) (k, -1)

/-- One step of the inversion: bring the largest pivot of column `k` onto the diagonal and eliminate the
column, in the matrix and in the partial inverse alike. -/
def invertStep (ε : α) (state : RowMatrix α × RowMatrix α) (k : Nat) :
    Except Error (RowMatrix α × RowMatrix α) :=
  let (pivotRow, magnitude) := largestBelow state.1 k
  if magnitude < ε then .error .singularBasis
  else
    let work := state.1.swapRows pivotRow k
    let inverse := state.2.swapRows pivotRow k
    let values := work.column k
    .ok (work.eliminate k values, inverse.eliminate k values)

/-- Inverse of a square matrix. A pivot below `ε` makes the matrix singular. -/
def invert (M : RowMatrix α) (ε : α) : Except Error (RowMatrix α) :=
  ((List.range M.nrRows).foldlM (invertStep ε) (M, identity M.nrRows)).map (·.2)

end LinearProgramming.RowMatrix
