import LinearProgramming.Tableau.Pivot

/-! # Bases with their inverse

A basis of a tableau, with the inverse of its basis matrix `B` relative to the first tableau of the problem.
With `A` and `b` the constraint data and `c` the cost of that first tableau, the tableau of the basis has rows
`B⁻¹ [A | b]` and relative costs `c_B B⁻¹ A - c`. -/

namespace LinearProgramming

/-- The basic column of each row, and the inverse of the matrix of these columns. -/
structure BasisInverse (α : Type) where
  columns : List Nat
  inverse : RowMatrix α
  deriving DecidableEq

variable {α : Type} [Scalar α]

/-- For each constraint row, the first column that is its unit vector. The basis kept by the tableau itself is
not looked at. -/
def Tableau.findBasis (t : Tableau α) (ε : α) : Except Error (List Nat) :=
  (List.range t.nrRows).mapM fun i =>
    match (List.range t.nrColumns).find? fun j => t.isUnitColumn i j ε with
    | some j => .ok j
    | none => .error (.basisNotFound i)

def Tableau.basisMatrix (first : Tableau α) (columns : List Nat) : RowMatrix α :=
  first.matrix.submatrix ((List.range first.nrRows).map (· + 1)) columns

namespace BasisInverse

/-! ### Building and changing -/

def ofColumns (first : Tableau α) (columns : List Nat) (ε : α) : Except Error (BasisInverse α) :=
  ((first.basisMatrix columns).invert ε).map (⟨columns, ·⟩)

/-- The basis of a later tableau of the same problem, found from its unit columns. -/
def ofTableau (t first : Tableau α) (unitε ε : α) : Except Error (BasisInverse α) :=
  match t.findBasis unitε with
  | .ok columns => ofColumns first columns ε
  | .error e => .error e

def identity (columns : List Nat) : BasisInverse α := ⟨columns, RowMatrix.identity columns.length⟩

/-- Replace the basic column of a row. `values` is `B⁻¹ a` for the entering column `a`. -/
def change (b : BasisInverse α) (row column : Nat) (values : List α) : BasisInverse α :=
  ⟨b.columns.set row column, b.inverse.eliminate row values⟩

/-! ### Derived quantities -/

def nonBasicColumns (b : BasisInverse α) (nrColumns : Nat) : List Nat :=
  (List.range nrColumns).filter (!b.columns.contains ·)

def basicCosts (b : BasisInverse α) (cost : List α) : List α := b.columns.map (cost.getD · 0)

/-- Shadow prices `c_B B⁻¹`. -/
def shadowPrices (b : BasisInverse α) (cost : List α) : List α :=
  RowMatrix.vecMul (b.basicCosts cost) b.inverse

/-- A column of the first tableau in the current basis, `B⁻¹ a`. -/
def transform (b : BasisInverse α) (column : List α) : List α := b.inverse.mulVec column

/-- Relative cost `y a - c` of a column under given prices. -/
def relativeCost (prices column : List α) (cost : α) : α := Scalar.dot prices column - cost

/-- The tableau of the basis, computed from the first tableau. Basic columns are exact unit vectors. -/
def tableau (b : BasisInverse α) (first : Tableau α) (cost : List α) : Tableau α :=
  let prices := b.shadowPrices cost
  let costRow :=
    ((List.range first.nrColumns).map fun j => relativeCost prices (first.column j) (cost.getD j 0)) ++
      [Scalar.dot prices first.rhsValues]
  let transformed := b.inverse.mul (RowMatrix.ofRows (first.matrix.rows.drop 1))
  let rows := b.columns.zipIdx.foldl (fun rows (j, k) => Tableau.unitColumn rows (k + 1) j)
    (costRow :: transformed.rows)
  Tableau.ofMatrix (RowMatrix.ofRows rows) b.columns

end BasisInverse

end LinearProgramming
