import LinearProgramming.Proofs.Tableau.Basis
import LinearProgramming.Tableau.Pivot

/-! # What a pivot does

A pivot on a nonzero entry of a column that is not basic rewrites the tableau in another basis. The new entries are
given in one formula for the whole matrix, from which those of the entries, right hand sides and relative costs
follow. `AtBasis.pivot` and `AtBasis.equivalent_pivot` are what the simplex methods need: the tableau stays at a
basis, and its solutions and its objective function stay the same. -/

namespace LinearProgramming

open Finset

namespace RowMatrix

variable {M : RowMatrix ℚ} {i j r c : ℕ}

theorem row_unitColumn (hi : i < M.nrRows) :
    ({ M with rows := Tableau.unitColumn M.rows r c } : RowMatrix ℚ).row i =
      (M.row i).set c (if i = r then 1 else 0) := by
  have hi' : i < M.rows.length := hi
  simp [RowMatrix.row, Tableau.unitColumn, List.getD_eq_getElem?_getD, List.getElem?_mapIdx,
    List.getElem?_eq_getElem hi']

theorem entry_unitColumn (hM : M.IsRectangular) (hi : i < M.nrRows) (hc : c < M.nrColumns) (j : ℕ) :
    ({ M with rows := Tableau.unitColumn M.rows r c } : RowMatrix ℚ).entry i j =
      if j = c then (if i = r then 1 else 0) else M.entry i j := by
  have hlen : c < (M.row i).length := by rw [length_row hM hi]; exact hc
  unfold RowMatrix.entry
  rw [row_unitColumn hi]
  exact getD_set _ hlen ..

theorem length_of_mem_unitColumn {α : Type} [Scalar α] {rows : List (List α)} {n : ℕ}
    (h : ∀ line ∈ rows, line.length = n) : ∀ line ∈ Tableau.unitColumn rows r c, line.length = n := by
  intro line hline
  obtain ⟨i, hi, rfl⟩ := List.mem_mapIdx.mp hline
  rw [List.length_set]
  exact h _ (List.getElem_mem hi)

end RowMatrix

namespace Tableau

variable {t : Tableau ℚ} {i j row column : ℕ}

/-! ### New entries -/

@[simp] theorem nrRows_pivot {α : Type} [Scalar α] (t : Tableau α) (column row : ℕ) :
    (t.pivot column row).nrRows = t.nrRows := by
  simp [nrRows, pivot, RowMatrix.nrRows, unitColumn, RowMatrix.eliminate]

@[simp] theorem nrColumns_pivot {α : Type} [Scalar α] (t : Tableau α) (column row : ℕ) :
    (t.pivot column row).nrColumns = t.nrColumns := rfl

/-- The overwritten column is what the elimination makes of it, so the whole matrix is the eliminated one. -/
theorem matrix_entry_pivot (h : t.WellFormed) (hrow : row < t.nrRows) (hcol : column < t.nrColumns)
    (hpivot : t.entry row column ≠ 0) (hi : i < t.matrix.nrRows) (j : ℕ) :
    (t.pivot column row).matrix.entry i j =
      (t.matrix.eliminate (row + 1) (t.matrix.column column)).entry i j := by
  have hr : row + 1 < t.matrix.nrRows := by rw [h.nrRows_matrix]; omega
  have hc : column < t.matrix.nrColumns := by rw [h.nrColumns_matrix]; omega
  have hrect := RowMatrix.isRectangular_eliminate h.rectangular hr (t.matrix.column column)
  have hunit := RowMatrix.entry_unitColumn (r := row + 1) (i := i) hrect
    (by rw [RowMatrix.nrRows_eliminate]; exact hi) hc j
  refine hunit.trans ?_
  split_ifs with hj hir
  · rw [RowMatrix.entry_eliminate h.rectangular hr _ hi, if_pos hir, RowMatrix.getD_column, hj]
    exact (div_self hpivot).symm
  · rw [RowMatrix.entry_eliminate h.rectangular hr _ hi, if_neg hir, RowMatrix.getD_column,
      RowMatrix.getD_column, hj]
    have hone : t.matrix.entry (row + 1) column / t.matrix.entry (row + 1) column = 1 := div_self hpivot
    rw [hone, mul_one, sub_self]
  · rfl

section Formulas

variable (h : t.WellFormed) (hrow : row < t.nrRows) (hcol : column < t.nrColumns)
  (hpivot : t.entry row column ≠ 0)

include h hrow hcol hpivot

theorem entry_pivot (hi : i < t.nrRows) (j : ℕ) :
    (t.pivot column row).entry i j =
      if i = row then t.entry row j / t.entry row column
      else t.entry i j - t.entry i column * (t.entry row j / t.entry row column) := by
  have hr : row + 1 < t.matrix.nrRows := by rw [h.nrRows_matrix]; omega
  have hi' : i + 1 < t.matrix.nrRows := by rw [h.nrRows_matrix]; omega
  have hformula := matrix_entry_pivot h hrow hcol hpivot hi' j
  rw [RowMatrix.entry_eliminate h.rectangular hr _ hi', RowMatrix.getD_column, RowMatrix.getD_column] at hformula
  simp only [Nat.add_right_cancel_iff] at hformula
  exact hformula

theorem rhs_pivot (hi : i < t.nrRows) :
    (t.pivot column row).rhs i =
      if i = row then t.rhs row / t.entry row column
      else t.rhs i - t.entry i column * (t.rhs row / t.entry row column) :=
  entry_pivot h hrow hcol hpivot hi t.nrColumns

theorem matrix_entry_zero_pivot (j : ℕ) :
    (t.pivot column row).matrix.entry 0 j =
      t.matrix.entry 0 j - t.relativeCost column * (t.entry row j / t.entry row column) := by
  have hr : row + 1 < t.matrix.nrRows := by rw [h.nrRows_matrix]; omega
  have hformula := matrix_entry_pivot h hrow hcol hpivot h.rows_pos j
  rw [RowMatrix.entry_eliminate h.rectangular hr _ h.rows_pos, if_neg (by omega), RowMatrix.getD_column,
    RowMatrix.getD_column] at hformula
  exact hformula

theorem relativeCost_pivot (j : ℕ) :
    (t.pivot column row).relativeCost j =
      t.relativeCost j - t.relativeCost column * (t.entry row j / t.entry row column) :=
  matrix_entry_zero_pivot h hrow hcol hpivot j

theorem objectiveValue_pivot :
    (t.pivot column row).objectiveValue =
      t.objectiveValue - t.relativeCost column * (t.rhs row / t.entry row column) :=
  matrix_entry_zero_pivot h hrow hcol hpivot t.nrColumns

/-! ### Same solutions -/

theorem rowDot_pivot (hi : i < t.matrix.nrRows) (x : ℕ → ℚ) :
    (t.pivot column row).matrix.rowDot i x =
      (t.matrix.eliminate (row + 1) (t.matrix.column column)).rowDot i x :=
  Finset.sum_congr rfl fun j _ => by rw [matrix_entry_pivot h hrow hcol hpivot hi]

theorem satisfies_pivot_iff (x : ℕ → ℚ) : (t.pivot column row).Satisfies x ↔ t.Satisfies x := by
  have hr : row + 1 < t.matrix.nrRows := by rw [h.nrRows_matrix]; omega
  have hp : (t.matrix.column column).getD (row + 1) 0 ≠ 0 := by
    rw [RowMatrix.getD_column]
    exact hpivot
  have hrange : ∀ i ∈ {i | 0 < i ∧ i ≤ t.nrRows}, i < t.matrix.nrRows := by
    rintro i ⟨_, hi⟩
    rw [h.nrRows_matrix]
    omega
  have hiff := RowMatrix.rowDot_eliminate_eq_zero_iff h.rectangular hr hp hrange ⟨by omega, by omega⟩
    (t.augment x)
  have hc := h.nrColumns_matrix
  rw [satisfies_iff_rowDot hc, satisfies_iff_rowDot (t := t.pivot column row) hc, nrRows_pivot, ← hiff]
  exact forall₂_congr fun i hi => by
    rw [rowDot_pivot h hrow hcol hpivot (hrange i hi)]
    rfl

theorem objectiveAt_pivot {x : ℕ → ℚ} (hx : t.Satisfies x) :
    (t.pivot column row).objectiveAt x = t.objectiveAt x := by
  have hr : row + 1 < t.matrix.nrRows := by rw [h.nrRows_matrix]; omega
  have hc := h.nrColumns_matrix
  have hzero := (satisfies_iff_rowDot hc x).mp hx (row + 1) ⟨by omega, by omega⟩
  have hsame := RowMatrix.rowDot_eliminate_of_eq_zero h.rectangular hr (t.matrix.column column) h.rows_pos
    (by omega) hzero
  rw [objectiveAt_eq_rowDot hc, objectiveAt_eq_rowDot (t := t.pivot column row) hc, ← hsame]
  exact congrArg Neg.neg (rowDot_pivot h hrow hcol hpivot h.rows_pos (t.augment x))

theorem equivalent_pivot : t.Equivalent (t.pivot column row) :=
  ⟨nrRows_pivot t column row, rfl, satisfies_pivot_iff h hrow hcol hpivot,
    fun _ hx => objectiveAt_pivot h hrow hcol hpivot hx⟩

end Formulas

/-! ### The new basis -/

theorem mem_set_iff {xs : List ℕ} (hnodup : xs.Nodup) (hrow : row < xs.length) :
    j ∈ xs.set row column ↔ j = column ∨ (j ∈ xs ∧ j ≠ xs.getD row 0) := by
  rw [List.getD_eq_getElem _ _ hrow]
  constructor
  · intro hj
    obtain ⟨k, hk, rfl⟩ := List.mem_iff_getElem.mp hj
    rw [List.getElem_set]
    split_ifs with hkr
    · exact Or.inl rfl
    · have hk' : k < xs.length := by simpa using hk
      refine Or.inr ⟨List.getElem_mem hk', fun heq => hkr ?_⟩
      exact ((List.Nodup.getElem_inj_iff hnodup).mp heq).symm
  · rintro (rfl | ⟨hj, hne⟩)
    · exact List.mem_set hrow j
    · obtain ⟨k, hk, rfl⟩ := List.mem_iff_getElem.mp hj
      have hkr : row ≠ k := by
        rintro rfl
        exact hne rfl
      refine List.mem_iff_getElem.mpr ⟨k, by rw [List.length_set]; exact hk, ?_⟩
      rw [List.getElem_set_ne hkr]

theorem nodup_set {xs : List ℕ} (hnodup : xs.Nodup) (hcol : column ∉ xs) :
    (xs.set row column).Nodup := by
  rw [List.nodup_iff_injective_getElem]
  intro a b hab
  simp only [List.getElem_set] at hab
  have ha : (a : ℕ) < xs.length := by simpa using a.isLt
  have hb : (b : ℕ) < xs.length := by simpa using b.isLt
  apply Fin.ext
  split_ifs at hab with h1 h2 h2
  · omega
  · exact absurd (hab ▸ List.getElem_mem hb) hcol
  · exact absurd (hab ▸ List.getElem_mem ha) hcol
  · exact (List.Nodup.getElem_inj_iff hnodup).mp hab

/-- The entry of the pivot plays no role, so this holds of any scalars. -/
theorem WellFormed.pivot {α : Type} [Scalar α] {t : Tableau α} (h : t.WellFormed) (hrow : row < t.nrRows)
    (hcol : column < t.nrColumns) (hnew : column ∉ t.basis) : (t.pivot column row).WellFormed := by
  have hr : row + 1 < t.matrix.nrRows := by rw [h.nrRows_matrix]; omega
  have hlen : row < t.basis.length := by rw [h.basis_length]; exact hrow
  have hleave : t.basis.getD row 0 < t.basicMask.length := by
    rw [h.mask_length]
    exact h.basis_lt _ (getD_mem hlen)
  have hrect := RowMatrix.isRectangular_eliminate h.rectangular hr (t.matrix.column column)
  have hrows : (t.pivot column row).matrix.nrRows = t.matrix.nrRows := by
    simp [Tableau.pivot, RowMatrix.nrRows, unitColumn, RowMatrix.eliminate]
  refine ⟨RowMatrix.length_of_mem_unitColumn hrect, ?_, h.columns_pos, ?_, nodup_set h.basis_nodup hnew,
    ?_, ?_, ?_⟩
  · rw [hrows]
    exact h.rows_pos
  · rw [nrRows_pivot, Tableau.pivot, List.length_set]
    exact h.basis_length
  · intro j hj
    rcases (mem_set_iff h.basis_nodup hlen).mp hj with rfl | ⟨hj, _⟩
    · exact hcol
    · exact h.basis_lt j hj
  · rw [nrColumns_pivot, Tableau.pivot, List.length_set, List.length_set]
    exact h.mask_length
  · intro j
    have hmask := h.mask_iff j
    simp only [isBasic, Tableau.pivot] at hmask ⊢
    rw [RowMatrix.getD_set _ (by rw [List.length_set, h.mask_length]; exact hcol),
      RowMatrix.getD_set _ hleave, mem_set_iff h.basis_nodup hlen]
    split_ifs with h1 h2
    · simp [h1]
    · exact iff_of_false id fun hj => hj.elim h1 fun hj => hj.2 h2
    · rw [hmask]
      exact ⟨fun hj => Or.inr ⟨hj, h2⟩, fun hj => hj.elim (absurd · h1) And.left⟩

theorem UnitAt.pivot (h : t.UnitAt t.basis) (hw : t.WellFormed) (hrow : row < t.nrRows)
    (hcol : column < t.nrColumns) (hpivot : t.entry row column ≠ 0) :
    (t.pivot column row).UnitAt (t.basis.set row column) := by
  have hlen : row < t.basis.length := by rw [h.length_eq]; exact hrow
  -- the columns that stay have a zero in the pivot row, so the elimination does not touch them
  have hstay : ∀ i < t.nrRows, i ≠ row → t.entry row (t.basis.getD i 0) = 0 := by
    intro i hi hne
    rw [h.entry i hi row hrow, if_neg (Ne.symm hne)]
  refine ⟨by rw [List.length_set, nrRows_pivot, h.length_eq], ?_, ?_, ?_⟩
  · intro j hj
    rcases List.mem_or_eq_of_mem_set hj with hj | rfl
    · exact h.lt j hj
    · exact hcol
  · intro i hi k hk
    rw [nrRows_pivot] at hi hk
    rw [RowMatrix.getD_set _ hlen, entry_pivot hw hrow hcol hpivot hk]
    by_cases hir : i = row
    · rw [if_pos hir, div_self hpivot, mul_one, sub_self, hir]
    · rw [if_neg hir, hstay i hi hir, zero_div, mul_zero, sub_zero, h.entry i hi k hk]
      by_cases hkr : k = row
      · rw [if_pos hkr, if_neg (by omega)]
      · rw [if_neg hkr]
  · intro i hi
    rw [nrRows_pivot] at hi
    rw [RowMatrix.getD_set _ hlen, relativeCost_pivot hw hrow hcol hpivot]
    by_cases hir : i = row
    · rw [if_pos hir, div_self hpivot, mul_one, sub_self]
    · rw [if_neg hir, hstay i hi hir, zero_div, mul_zero, sub_zero, h.cost i hi]

theorem AtBasis.pivot (h : t.AtBasis) (hrow : row < t.nrRows) (hcol : column < t.nrColumns)
    (hnew : column ∉ t.basis) (hpivot : t.entry row column ≠ 0) : (t.pivot column row).AtBasis :=
  ⟨h.wellFormed.pivot hrow hcol hnew, h.unitAt.pivot h.wellFormed hrow hcol hpivot⟩

theorem AtBasis.equivalent_pivot (h : t.AtBasis) (hrow : row < t.nrRows) (hcol : column < t.nrColumns)
    (hpivot : t.entry row column ≠ 0) : t.Equivalent (t.pivot column row) :=
  Tableau.equivalent_pivot h.wellFormed hrow hcol hpivot

end Tableau

end LinearProgramming
