import LinearProgramming.RowMatrix.Basic
import LinearProgramming.Scalar.Tolerance

/-! # Simplex tableaus

A tableau with `m` constraint rows and `n` columns is a matrix of `m + 1` rows and `n + 1` columns. Row zero
holds the relative costs, the last column the right hand sides, and their common entry the objective value of
the maximisation that the tableau stands for. Constraint rows are counted from zero, so constraint row `i` is
matrix row `i + 1`.

Each constraint row has a basic column. The basis is kept twice: as the list of basic columns by row, and as
a mask over the columns. `Tableau.WellFormed` says that the parts agree. -/

namespace LinearProgramming

/-- A simplex tableau with the basic column of each constraint row, and a mask that marks these columns. -/
structure Tableau (α : Type) where
  matrix : RowMatrix α
  basis : List Nat
  basicMask : List Bool
  deriving DecidableEq

namespace Tableau

variable {α : Type} [Scalar α]

def ofMatrix (matrix : RowMatrix α) (basis : List Nat) : Tableau α :=
  ⟨matrix, basis, (List.range (matrix.nrColumns - 1)).map basis.contains⟩

/-! ### Reading -/

def nrRows (t : Tableau α) : Nat := t.matrix.nrRows - 1

/-- Number of columns, the right hand side apart. -/
def nrColumns (t : Tableau α) : Nat := t.matrix.nrColumns - 1

def entry (t : Tableau α) (i j : Nat) : α := t.matrix.entry (i + 1) j

def rhs (t : Tableau α) (i : Nat) : α := t.matrix.entry (i + 1) t.nrColumns

def rhsValues (t : Tableau α) : List α := (List.range t.nrRows).map t.rhs

def relativeCost (t : Tableau α) (j : Nat) : α := t.matrix.entry 0 j

def relativeCosts (t : Tableau α) : List α := (t.matrix.row 0).take t.nrColumns

def objectiveValue (t : Tableau α) : α := t.matrix.entry 0 t.nrColumns

def column (t : Tableau α) (j : Nat) : List α := (List.range t.nrRows).map (t.entry · j)

def row (t : Tableau α) (i : Nat) : List α := (t.matrix.row (i + 1)).take t.nrColumns

def isBasic (t : Tableau α) (j : Nat) : Bool := t.basicMask.getD j false

def nonBasicColumns (t : Tableau α) : List Nat := (List.range t.nrColumns).filter (!t.isBasic ·)

def basisRow? (t : Tableau α) (j : Nat) : Option Nat := t.basis.idxOf? j

/-- The basic solution: each basic column takes the right hand side of its row, all others are zero. -/
def basicSolution (t : Tableau α) : List α :=
  t.basis.zipIdx.foldl (fun values (j, i) => values.set j (t.rhs i)) (List.replicate t.nrColumns 0)

/-! ### Properties -/

/-- The parts of the tableau fit together: the matrix is rectangular with a cost row and a right hand side,
the basis has one distinct column per constraint row, and the mask marks exactly these columns. -/
structure WellFormed (t : Tableau α) : Prop where
  rectangular : t.matrix.IsRectangular
  rows_pos : 0 < t.matrix.nrRows
  columns_pos : 0 < t.matrix.nrColumns
  basis_length : t.basis.length = t.nrRows
  basis_nodup : t.basis.Nodup
  basis_lt : ∀ j ∈ t.basis, j < t.nrColumns
  mask_length : t.basicMask.length = t.nrColumns
  mask_iff : ∀ j, t.isBasic j = true ↔ j ∈ t.basis

/-- Whether column `j` is, up to `ε`, the unit vector of row `i` with relative cost zero. -/
def isUnitColumn (t : Tableau α) (i j : Nat) (ε : α) : Bool :=
  Scalar.isZero (t.relativeCost j) ε &&
    (List.range t.nrRows).all fun k => Scalar.isZero (t.entry k j - if k == i then 1 else 0) ε

def hasUnitBasis (t : Tableau α) (ε : α) : Bool :=
  t.basis.zipIdx.all fun (j, i) => t.isUnitColumn i j ε

def isPrimalFeasible (t : Tableau α) (ε : α) : Bool :=
  (List.range t.nrRows).all fun i => !Scalar.isNegative (t.rhs i) ε

def isDualFeasible (t : Tableau α) (ε : α) : Bool :=
  (List.range t.nrColumns).all fun j => !Scalar.isNegative (t.relativeCost j) ε

def isOptimal (t : Tableau α) (ε : α) : Bool := t.isPrimalFeasible ε && t.isDualFeasible ε

def isBasicFeasible (t : Tableau α) (ε : α) : Bool := t.hasUnitBasis ε && t.isPrimalFeasible ε

end Tableau

end LinearProgramming
