import LinearProgramming.Scalar.Basic

/-! # Matrices stored by rows

A dense matrix is a list of rows, all of the same length, together with its number of columns, which the
rows alone do not tell when there are none. Reading outside the matrix gives zero. -/

namespace LinearProgramming

/-- A dense matrix, row by row. -/
structure RowMatrix (α : Type) where
  rows : List (List α)
  nrColumns : Nat
  deriving DecidableEq

namespace RowMatrix

variable {α : Type} [Scalar α]

def nrRows (M : RowMatrix α) : Nat := M.rows.length

def IsRectangular (M : RowMatrix α) : Prop := ∀ row ∈ M.rows, row.length = M.nrColumns

/-- The matrix with the given rows, its width being that of the first one. -/
def ofRows (rows : List (List α)) : RowMatrix α := ⟨rows, (rows.headD []).length⟩

def unitVector (n i : Nat) : List α := (List.replicate n 0).set i 1

def identity (n : Nat) : RowMatrix α := ⟨(List.range n).map (unitVector n), n⟩

def zeros (m n : Nat) : RowMatrix α := ⟨List.replicate m (List.replicate n 0), n⟩

/-! ### Reading -/

def row (M : RowMatrix α) (i : Nat) : List α := M.rows.getD i []

def entry (M : RowMatrix α) (i j : Nat) : α := (M.row i).getD j 0

def column (M : RowMatrix α) (j : Nat) : List α := M.rows.map (·.getD j 0)

def submatrix (M : RowMatrix α) (rows columns : List Nat) : RowMatrix α :=
  ⟨rows.map fun i => columns.map fun j => M.entry i j, columns.length⟩

/-- Same shape, and every entry within `ε` of its counterpart. -/
def approxEq (M N : RowMatrix α) (ε : α) : Bool :=
  M.nrRows == N.nrRows && M.nrColumns == N.nrColumns &&
    (List.zipWith (fun a b => decide (Scalar.abs (a - b) ≤ ε)) M.rows.flatten N.rows.flatten).all id

/-! ### Changing -/

def setEntry (M : RowMatrix α) (i j : Nat) (v : α) : RowMatrix α :=
  { M with rows := M.rows.modify i (·.set j v) }

def scaleRow (M : RowMatrix α) (i : Nat) (factor : α) : RowMatrix α :=
  { M with rows := M.rows.modify i (·.map (· * factor)) }

/-- The row `target + factor * source`, entry by entry. -/
def addMultiple (factor : α) (source target : List α) : List α :=
  List.zipWith (fun t s => t + factor * s) target source

def addRowMultiple (M : RowMatrix α) (source target : Nat) (factor : α) : RowMatrix α :=
  { M with rows := M.rows.modify target (addMultiple factor (M.row source)) }

def swapRows (M : RowMatrix α) (i k : Nat) : RowMatrix α :=
  { M with rows := (M.rows.set i (M.row k)).set k (M.row i) }

/-- Append a row at the bottom; the first row of a matrix without rows decides its width. -/
def pushRow (M : RowMatrix α) (newRow : List α) : RowMatrix α :=
  ⟨M.rows ++ [newRow], if M.rows.isEmpty then newRow.length else M.nrColumns⟩

/-- Insert a column so that it gets index `j`. -/
def insertColumn (M : RowMatrix α) (j : Nat) (values : List α) : RowMatrix α :=
  ⟨List.zipWith (fun r v => r.insertIdx j v) M.rows values, M.nrColumns + 1⟩

/-! ### Products -/

def vecMul (v : List α) (M : RowMatrix α) : List α :=
  (List.range M.nrColumns).map fun j => Scalar.dot v (M.column j)

def mulVec (M : RowMatrix α) (v : List α) : List α := M.rows.map (Scalar.dot · v)

def mul (M N : RowMatrix α) : RowMatrix α := ⟨M.rows.map (vecMul · N), N.nrColumns⟩

end RowMatrix

end LinearProgramming
