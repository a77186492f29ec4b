import LinearProgramming.Proofs.Scalar.Exact
import LinearProgramming.Proofs.RowMatrix.Shape

/-! # Elimination, entry by entry

What `RowMatrix.eliminate` does to the entries of a rectangular matrix, and to the product of its rows with a
vector. A vector is a function on column indices, and `rowDot M i x` is row `i` times `x`. Since elimination
combines rows linearly, `rowDot_eliminate` has the same shape as `entry_eliminate`, and a nonzero pivot changes
no system of homogeneous equations (`rowDot_eliminate_eq_zero_iff`). -/

namespace LinearProgramming.RowMatrix

open Finset

variable {M : RowMatrix ℚ} {i j r : ℕ}

/-! ### Reading -/

theorem getD_set {α : Type} (xs : List α) {k : ℕ} (hk : k < xs.length) (a d : α) (j : ℕ) :
    (xs.set k a).getD j d = if j = k then a else xs.getD j d := by
  split_ifs with hj
  · rw [hj, List.getD_eq_getElem _ _ (by rw [List.length_set]; exact hk), List.getElem_set_self]
  · rw [List.getD_eq_getElem?_getD, List.getElem?_set_ne (Ne.symm hj), List.getD_eq_getElem?_getD]

theorem ext_entry {N : RowMatrix ℚ} (hM : M.IsRectangular) (hN : N.IsRectangular) (hrows : M.nrRows = N.nrRows)
    (hcolumns : M.nrColumns = N.nrColumns) (h : ∀ i < M.nrRows, ∀ j < M.nrColumns, M.entry i j = N.entry i j) :
    M = N := by
  have hlines : M.rows = N.rows := by
    refine List.ext_getElem hrows fun i hi hi' => ?_
    have hlen : M.rows[i].length = M.nrColumns := hM _ (List.getElem_mem hi)
    have hlen' : N.rows[i].length = N.nrColumns := hN _ (List.getElem_mem hi')
    refine List.ext_getElem (by omega) fun j hj hj' => ?_
    have hentry := h i hi j (hlen ▸ hj)
    rwa [entry, entry, row, row, List.getD_eq_getElem _ _ hi, List.getD_eq_getElem _ _ hi',
      List.getD_eq_getElem _ _ hj, List.getD_eq_getElem _ _ hj'] at hentry
  cases M
  cases N
  exact congrArg₂ RowMatrix.mk hlines hcolumns

theorem getD_column (M : RowMatrix ℚ) (i j : ℕ) : (M.column j).getD i 0 = M.entry i j := by
  simp only [RowMatrix.column, RowMatrix.entry, RowMatrix.row, List.getD_eq_getElem?_getD, List.getElem?_map]
  cases M.rows[i]? <;> simp

theorem getD_map_mul (xs : List ℚ) (c : ℚ) (j : ℕ) : (xs.map (· * c)).getD j 0 = xs.getD j 0 * c := by
  simp only [List.getD_eq_getElem?_getD, List.getElem?_map]
  cases xs[j]? <;> simp

theorem getD_addMultiple (c : ℚ) (source target : List ℚ) (h : source.length = target.length) (j : ℕ) :
    (addMultiple c source target).getD j 0 = target.getD j 0 + c * source.getD j 0 := by
  simp only [addMultiple, List.getD_eq_getElem?_getD, List.getElem?_zipWith]
  by_cases hj : j < target.length
  · rw [List.getElem?_eq_getElem hj, List.getElem?_eq_getElem (h ▸ hj)]
    rfl
  · rw [List.getElem?_eq_none (not_lt.mp hj), List.getElem?_eq_none (h ▸ not_lt.mp hj)]
    simp

theorem getD_unitVector {n k : ℕ} (hk : k < n) (j : ℕ) :
    (unitVector n k : List ℚ).getD j 0 = if j = k then 1 else 0 := by
  rw [unitVector, getD_set _ (by simpa using hk), List.getD_eq_getElem?_getD]
  exact ite_congr rfl (fun _ => rfl) fun _ => List.getElem?_getD_replicate_default_eq _ n j

/-! ### Entries after an elimination -/

theorem row_eliminate (values : List ℚ) (hi : i < M.nrRows) :
    (M.eliminate r values).row i =
      if i = r then (M.row r).map (· * (1 / values.getD r 0))
      else if values.getD i 0 = 0 then M.row i
      else addMultiple (-values.getD i 0) ((M.row r).map (· * (1 / values.getD r 0))) (M.row i) := by
  have hrow : M.rows[i]? = some (M.row i) := by
    simp [RowMatrix.row, List.getD_eq_getElem?_getD, List.getElem?_eq_getElem (show i < M.rows.length from hi)]
  show ((M.eliminate r values).rows.getD i []) = _
  simp only [RowMatrix.eliminate, List.getD_eq_getElem?_getD, List.getElem?_mapIdx, hrow, Option.map_some,
    Option.getD_some, beq_iff_eq]

theorem entry_eliminate (hM : M.IsRectangular) (hr : r < M.nrRows) (values : List ℚ) (hi : i < M.nrRows)
    (j : ℕ) :
    (M.eliminate r values).entry i j =
      if i = r then M.entry r j / values.getD r 0
      else M.entry i j - values.getD i 0 * (M.entry r j / values.getD r 0) := by
  have hscaled : ((M.row r).map (· * (1 / values.getD r 0))).getD j 0 =
      M.entry r j / values.getD r 0 := by
    rw [getD_map_mul, mul_one_div]
    rfl
  unfold RowMatrix.entry at hscaled ⊢
  rw [row_eliminate values hi]
  split_ifs with h hzero
  · exact hscaled
  · rw [hzero, zero_mul, sub_zero]
  · rw [getD_addMultiple _ _ _ (by rw [List.length_map, length_row hM hr, length_row hM hi]), hscaled]
    ring

/-! ### Rows times a vector -/

/-- Row `i` times a vector. -/
def rowDot (M : RowMatrix ℚ) (i : ℕ) (x : ℕ → ℚ) : ℚ := ∑ j ∈ range M.nrColumns, M.entry i j * x j

theorem rowDot_congr {x y : ℕ → ℚ} (h : ∀ j < M.nrColumns, x j = y j) (i : ℕ) : M.rowDot i x = M.rowDot i y :=
  Finset.sum_congr rfl fun j hj => by rw [h j (Finset.mem_range.mp hj)]

theorem rowDot_eliminate (hM : M.IsRectangular) (hr : r < M.nrRows) (values : List ℚ) (hi : i < M.nrRows)
    (x : ℕ → ℚ) :
    (M.eliminate r values).rowDot i x =
      if i = r then M.rowDot r x / values.getD r 0
      else M.rowDot i x - values.getD i 0 * (M.rowDot r x / values.getD r 0) := by
  unfold rowDot
  rw [nrColumns_eliminate]
  split_ifs with h
  · rw [Finset.sum_div]
    refine Finset.sum_congr rfl fun j _ => ?_
    rw [entry_eliminate hM hr values hi, if_pos h]
    ring
  · rw [Finset.sum_div, Finset.mul_sum, ← Finset.sum_sub_distrib]
    refine Finset.sum_congr rfl fun j _ => ?_
    rw [entry_eliminate hM hr values hi, if_neg h]
    ring

theorem rowDot_eliminate_of_eq_zero (hM : M.IsRectangular) (hr : r < M.nrRows) (values : List ℚ)
    (hi : i < M.nrRows) (hir : i ≠ r) {x : ℕ → ℚ} (hx : M.rowDot r x = 0) :
    (M.eliminate r values).rowDot i x = M.rowDot i x := by
  rw [rowDot_eliminate hM hr values hi, if_neg hir, hx, zero_div, mul_zero, sub_zero]

/-- A set of rows that contains the pivot row vanishes on the same vectors before and after. -/
theorem rowDot_eliminate_eq_zero_iff (hM : M.IsRectangular) (hr : r < M.nrRows) {values : List ℚ}
    (hpivot : values.getD r 0 ≠ 0) {rows : Set ℕ} (hrows : ∀ i ∈ rows, i < M.nrRows) (hmem : r ∈ rows)
    (x : ℕ → ℚ) :
    (∀ i ∈ rows, (M.eliminate r values).rowDot i x = 0) ↔ ∀ i ∈ rows, M.rowDot i x = 0 := by
  have hself : (M.eliminate r values).rowDot r x = M.rowDot r x / values.getD r 0 := by
    rw [rowDot_eliminate hM hr values hr, if_pos rfl]
  have hzero : (M.eliminate r values).rowDot r x = 0 ↔ M.rowDot r x = 0 := by
    rw [hself, div_eq_zero_iff, or_iff_left hpivot]
  have hothers : M.rowDot r x = 0 → ∀ i ∈ rows, i ≠ r →
      (M.eliminate r values).rowDot i x = M.rowDot i x :=
    fun hx i hi hir => rowDot_eliminate_of_eq_zero hM hr values (hrows i hi) hir hx
  constructor
  · intro h i hi
    have hx : M.rowDot r x = 0 := hzero.mp (h r hmem)
    by_cases hir : i = r
    · rw [hir, hx]
    · rw [← hothers hx i hi hir, h i hi]
  · intro h i hi
    by_cases hir : i = r
    · rw [hir, hzero.mpr (h r hmem)]
    · rw [hothers (h r hmem) i hi hir, h i hi]

end LinearProgramming.RowMatrix
