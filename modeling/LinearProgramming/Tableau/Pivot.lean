import LinearProgramming.RowMatrix.Inverse
import LinearProgramming.Tableau.Basic

/-! # Pivoting

A pivot exchanges the basic column of a row for another one, and the ratio tests say on which row or column to
pivot. -/

namespace LinearProgramming.Tableau

variable {α : Type} [Scalar α]

def unitColumn (rows : List (List α)) (r j : Nat) : List (List α) :=
  rows.mapIdx fun i row => row.set j (if i == r then 1 else 0)

/-- Make `column` basic in constraint row `row`. The whole matrix takes part in the elimination, and the
column itself is written as an exact unit vector, so that it keeps no rounding residue. -/
def pivot (t : Tableau α) (column row : Nat) : Tableau α :=
  let reduced := t.matrix.eliminate (row + 1) (t.matrix.column column)
  { matrix := { reduced with rows := unitColumn reduced.rows (row + 1) column }
    basis := t.basis.set row column
    basicMask := (t.basicMask.set (t.basis.getD row 0) false).set column true }

/-! ### Ratio tests -/

/-- The ratio of right hand side and entry for each row with a positive entry in the column. A right hand side
below zero counts as zero. -/
def primalRatios (t : Tableau α) (column : Nat) (ε : α) : List (Nat × α) :=
  ((List.range t.nrRows).filter fun i => Scalar.isPositive (t.entry i column) ε).map fun i =>
    (i, Scalar.maximum (t.rhs i) 0 / t.entry i column)

/-- The first row with a minimal ratio. Without one, the column can grow without bound. -/
def primalRow? (t : Tableau α) (column : Nat) (ε : α) : Option Nat :=
  (Scalar.firstMinimum (t.primalRatios column ε) ε).map (·.1)

def leastBy (key : Nat → Nat) : List Nat → Option Nat
  | [] => none
  | i :: rest =>
    match leastBy key rest with
    | none => some i
    | some k => if key k < key i then some k else some i

/-- Of the rows with a minimal ratio, the one whose basic column has the least index. -/
def primalRowByLowestBasic? (t : Tableau α) (column : Nat) (ε : α) : Option Nat :=
  let ratios := t.primalRatios column ε
  match Scalar.firstMinimum ratios ε with
  | none => none
  | some (_, least) =>
    leastBy (fun i => t.basis.getD i 0) ((ratios.filter fun (_, ratio) => ratio ≤ least + ε).map (·.1))

/-- The first row with the most negative right hand side. Without one, the tableau is primal feasible. -/
def dualRow? (t : Tableau α) (ε : α) : Option Nat :=
  (Scalar.firstMinimum
    (((List.range t.nrRows).map fun i => (i, t.rhs i)).filter fun (_, value) => Scalar.isNegative value ε)
    ε).map (·.1)

/-- For each column that is not basic and has a negative entry in the row, the absolute ratio of its relative
cost and that entry. -/
def dualRatios (t : Tableau α) (row : Nat) (ε : α) : List (Nat × α) :=
  (t.nonBasicColumns.filter fun j => Scalar.isNegative (t.entry row j) ε).map fun j =>
    (j, Scalar.abs (t.relativeCost j / t.entry row j))

/-- The first column with a minimal ratio. Without one, the row cannot be satisfied. -/
def dualColumn? (t : Tableau α) (row : Nat) (ε : α) : Option Nat :=
  (Scalar.firstMinimum (t.dualRatios row ε) ε).map (·.1)

end LinearProgramming.Tableau
