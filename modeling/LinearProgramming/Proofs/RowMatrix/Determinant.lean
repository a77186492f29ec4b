import Mathlib.LinearAlgebra.Matrix.Nondegenerate
import Mathlib.LinearAlgebra.Matrix.NonsingularInverse
import LinearProgramming.Proofs.RowMatrix.Inverse

/-! # Inversion and the determinant

A square matrix that is stored by rows is also a matrix in the sense of linear algebra (`RowMatrix.toMatrix`), and the
product of the stored matrices is that of the matrices (`toMatrix_mul`). So the determinant tells which matrices have an
inverse: `RowMatrix.invert` finds none if it is zero, whatever the tolerance, and finds one if it is not, once the
tolerance is small enough. What is found is an inverse from both sides (`isInverse_invert`). -/

namespace LinearProgramming.RowMatrix

open Finset

variable {M N : RowMatrix ℚ} {i j n : ℕ} {ε : ℚ}

/-! ### Entries as a matrix -/

/-- The entries of the first rows and columns. -/
def toMatrix (M : RowMatrix ℚ) (n : ℕ) : Matrix (Fin n) (Fin n) ℚ := Matrix.of fun i j => M.entry i j

theorem toMatrix_apply (M : RowMatrix ℚ) (i j : Fin n) : M.toMatrix n i j = M.entry i j := rfl

theorem eq_of_toMatrix_eq (hM : M.HasShape n n) (hN : N.HasShape n n) (h : M.toMatrix n = N.toMatrix n) : M = N := by
  refine ext_entry hM.rectangular hN.rectangular (hM.nrRows_eq.trans hN.nrRows_eq.symm)
    (hM.nrColumns_eq.trans hN.nrColumns_eq.symm) fun i hi j hj => ?_
  rw [hM.nrRows_eq] at hi
  rw [hM.nrColumns_eq] at hj
  exact congrFun (congrFun h ⟨i, hi⟩) ⟨j, hj⟩

theorem toMatrix_identity (n : ℕ) : (identity n : RowMatrix ℚ).toMatrix n = 1 := by
  ext i j
  rw [toMatrix_apply, entry_identity i.isLt, Matrix.one_apply]
  simp only [Fin.ext_iff, eq_comm]

theorem rowDot_eq_sum (hM : M.nrColumns = n) (i : ℕ) (x : ℕ → ℚ) : M.rowDot i x = ∑ k : Fin n, M.entry i k * x k := by
  rw [rowDot, hM, Finset.sum_range]

theorem entry_mul (hN : N.HasShape n n) (hi : i < n) (hj : j < M.nrColumns) :
    (N.mul M).entry i j = N.rowDot i (M.entry · j) := by
  have hi' : i < N.nrRows := hN.nrRows_eq.symm ▸ hi
  have hrow : (N.mul M).row i = vecMul (N.row i) M := by
    simp [mul, row, show i < N.rows.length from hi']
  have hlen : min (N.row i).length (M.column j).length ≤ N.nrColumns := by
    rw [length_row hN.rectangular hi']
    exact min_le_left _ _
  rw [entry, hrow, vecMul, List.getD_eq_getElem _ _ (by simpa using hj), List.getElem_map, List.getElem_range,
    Scalar.dot_eq_sum_range _ _ _ hlen]
  simp only [getD_column]
  rfl

theorem toMatrix_mul (hN : N.HasShape n n) (hM : M.nrColumns = n) :
    (N.mul M).toMatrix n = N.toMatrix n * M.toMatrix n := by
  ext i j
  rw [toMatrix_apply, entry_mul hN i.isLt (hM.symm ▸ j.isLt), rowDot_eq_sum hN.nrColumns_eq, Matrix.mul_apply]
  rfl

/-! ### Inverses -/

/-- The products from both sides are the identity. -/
structure IsInverse (N M : RowMatrix ℚ) (n : ℕ) : Prop where
  mul_left : N.mul M = identity n
  mul_right : M.mul N = identity n

theorem hasShape_mul_of_square (hN : N.HasShape n n) (hM : M.HasShape n n) : (N.mul M).HasShape n n := by
  have hshape := hasShape_mul N M
  rwa [hN.nrRows_eq, hM.nrColumns_eq] at hshape

/-- Of square matrices, an inverse from one side is one from both. -/
theorem isInverse_of_toMatrix_mul (hN : N.HasShape n n) (hM : M.HasShape n n)
    (h : N.toMatrix n * M.toMatrix n = 1) : N.IsInverse M n := by
  refine ⟨eq_of_toMatrix_eq (hasShape_mul_of_square hN hM) (hasShape_identity n) ?_,
    eq_of_toMatrix_eq (hasShape_mul_of_square hM hN) (hasShape_identity n) ?_⟩
  · rw [toMatrix_mul hN hM.nrColumns_eq, toMatrix_identity, h]
  · rw [toMatrix_mul hM hN.nrColumns_eq, toMatrix_identity, mul_eq_one_comm.mp h]

theorem IsInverse.toMatrix_mul_eq_one (h : N.IsInverse M n) (hN : N.HasShape n n) (hM : M.HasShape n n) :
    N.toMatrix n * M.toMatrix n = 1 := by
  rw [← toMatrix_mul hN hM.nrColumns_eq, h.mul_left, toMatrix_identity]

theorem IsInverse.unique {N' : RowMatrix ℚ} (h : N.IsInverse M n) (h' : N'.IsInverse M n) (hN : N.HasShape n n)
    (hN' : N'.HasShape n n) (hM : M.HasShape n n) : N = N' := by
  refine eq_of_toMatrix_eq hN hN' (left_inv_eq_right_inv (h.toMatrix_mul_eq_one hN hM) ?_)
  exact mul_eq_one_comm.mp (h'.toMatrix_mul_eq_one hN' hM)

theorem IsInverse.det_ne_zero (h : N.IsInverse M n) (hN : N.HasShape n n) (hM : M.HasShape n n) :
    (M.toMatrix n).det ≠ 0 := by
  have hunit := congrArg Matrix.det (h.toMatrix_mul_eq_one hN hM)
  rw [Matrix.det_mul, Matrix.det_one] at hunit
  exact right_ne_zero_of_mul_eq_one hunit

theorem isInverse_of_invert_eq_ok (hM : M.HasShape n n) (hε : 0 < ε) (h : M.invert ε = .ok N) : N.IsInverse M n := by
  obtain ⟨work, hreduces⟩ := reduces_invert hM hε h
  obtain rfl := hM.nrRows_eq
  refine isInverse_of_toMatrix_mul hreduces.inverse hM ?_
  ext i j
  have hentry : work.entry i j = N.rowDot i (M.entry · j) := hreduces.product i i.isLt j
  rw [hreduces.unit j j.isLt i i.isLt, rowDot_eq_sum hreduces.inverse.nrColumns_eq] at hentry
  rw [Matrix.mul_apply, Matrix.one_apply]
  simp only [Fin.ext_iff, toMatrix_apply]
  exact hentry.symm

theorem regular_of_det_ne_zero (hM : M.HasShape n n) (h : (M.toMatrix n).det ≠ 0) : M.Regular n := by
  refine ⟨hM.rectangular, hM.nrRows_eq, hM.nrColumns_eq, fun x hx j hj => ?_⟩
  have hzero : (M.toMatrix n).mulVec (fun k => x k) = 0 := by
    ext i
    have hrow := hx i i.isLt
    rw [rowDot_eq_sum hM.nrColumns_eq] at hrow
    exact hrow
  exact congrFun (Matrix.eq_zero_of_mulVec_eq_zero h hzero) ⟨j, hj⟩

/-- Inversion of a square matrix of any size. A matrix with determinant zero is reported as singular, any other one is
inverted by all tolerances up to some bound, and whatever is returned is an inverse from both sides. -/
theorem isInverse_invert (hM : M.HasShape n n) :
    (∀ ε > 0, ∀ N, M.invert ε = .ok N → N.IsInverse M n) ∧
    ((M.toMatrix n).det = 0 → ∀ ε > 0, M.invert ε = .error .singularBasis) ∧
    ((M.toMatrix n).det ≠ 0 → ∃ ε₀ > 0, ∀ ε, 0 < ε → ε ≤ ε₀ → ∃ N, M.invert ε = .ok N) := by
  refine ⟨fun ε hε N hok => isInverse_of_invert_eq_ok hM hε hok, fun hdet ε hε => ?_, fun hdet => ?_⟩
  · obtain ⟨N, hok⟩ | herror := invert_eq_ok_or_error M ε
    · exact absurd hdet ((isInverse_of_invert_eq_ok hM hε hok).det_ne_zero (hM.invert hok) hM)
    · exact herror
  · have hregular := regular_of_det_ne_zero hM hdet
    obtain ⟨N, hok, -⟩ := hregular.invert
    obtain ⟨ε₀, hε₀, heq⟩ := hregular.exists_invert_eq
    exact ⟨ε₀, hε₀, fun ε hε hle => ⟨N, (heq ε hε.le hle).trans hok⟩⟩

/-- Inverting this matrix takes an exchange of rows for the first two pivots. -/
def exchangedMatrix : RowMatrix ℚ := ofRows [[0, 2, 1], [1, 0, 0], [3, 0, 1]]

def dependentMatrix : RowMatrix ℚ := ofRows [[1, 2], [2, 4]]

theorem isInverse_invert_exchangedMatrix :
    (exchangedMatrix.HasShape 3 3 ∧ ∃ N, exchangedMatrix.invert (1 / 1000) = .ok N ∧ N.IsInverse exchangedMatrix 3) ∧
    dependentMatrix.HasShape 2 2 ∧ (dependentMatrix.toMatrix 2).det = 0 ∧
      dependentMatrix.invert (1 / 1000) = .error .singularBasis := by
  have hexchanged : exchangedMatrix.HasShape 3 3 := hasShape_ofRows rfl (by simp)
  have hdependent : dependentMatrix.HasShape 2 2 := hasShape_ofRows rfl (by simp)
  have hε : (0 : ℚ) < 1 / 1000 := by norm_num
  have hok : exchangedMatrix.invert (1 / 1000) =
      .ok ⟨[[0, 1, 0], [1 / 2, 3 / 2, -1 / 2], [0, -3, 1]], 3⟩ := by decide +kernel
  have hdet : (dependentMatrix.toMatrix 2).det = 0 := by
    rw [Matrix.det_fin_two]
    decide +kernel
  exact ⟨⟨hexchanged, _, hok, (isInverse_invert hexchanged).1 _ hε _ hok⟩, hdependent, hdet,
    (isInverse_invert hdependent).2.1 hdet _ hε⟩

end LinearProgramming.RowMatrix
