import LinearProgramming.Proofs.RowMatrix.Edit
import LinearProgramming.Proofs.Tableau.Basis
import LinearProgramming.Tableau.Extend

/-! # Edited tableaus

A new column, and entries that are overwritten outside the basic columns, leave a tableau at its basis. -/

namespace LinearProgramming.Tableau

variable {t : Tableau ℚ} {i j : ℕ}

/-! ### A new column -/

section AddColumn

variable {values : List ℚ} (hwf : t.WellFormed) (hlen : values.length = t.nrRows + 1)
include hwf hlen

theorem WellFormed.nrRows_addColumn : (t.addColumn values).nrRows = t.nrRows := by
  rw [nrRows, addColumn, RowMatrix.nrRows_insertColumn (hlen.trans hwf.nrRows_matrix.symm)]
  rfl

omit hlen in
theorem WellFormed.nrColumns_addColumn : (t.addColumn values).nrColumns = t.nrColumns + 1 := by
  show t.matrix.nrColumns + 1 - 1 = t.nrColumns + 1
  rw [hwf.nrColumns_matrix, Nat.add_sub_cancel]

theorem WellFormed.matrix_entry_addColumn (hi : i < t.nrRows + 1) (j : ℕ) :
    (t.addColumn values).matrix.entry i j =
      if j < t.nrColumns then t.matrix.entry i j
      else if j = t.nrColumns then values.getD i 0 else t.matrix.entry i (j - 1) :=
  RowMatrix.entry_insertColumn hwf.rectangular (hlen.trans hwf.nrRows_matrix.symm)
    (by rw [hwf.nrColumns_matrix]; omega) (by rw [hwf.nrRows_matrix]; exact hi) j

theorem WellFormed.matrix_entry_addColumn_of_lt (hi : i < t.nrRows + 1) (hj : j < t.nrColumns) :
    (t.addColumn values).matrix.entry i j = t.matrix.entry i j := by
  rw [hwf.matrix_entry_addColumn hlen hi, if_pos hj]

theorem WellFormed.matrix_entry_addColumn_self (hi : i < t.nrRows + 1) :
    (t.addColumn values).matrix.entry i t.nrColumns = values.getD i 0 := by
  rw [hwf.matrix_entry_addColumn hlen hi, if_neg (lt_irrefl _), if_pos rfl]

theorem WellFormed.matrix_entry_addColumn_last (hi : i < t.nrRows + 1) :
    (t.addColumn values).matrix.entry i (t.addColumn values).nrColumns = t.matrix.entry i t.nrColumns := by
  rw [hwf.nrColumns_addColumn, hwf.matrix_entry_addColumn hlen hi, if_neg (by omega), if_neg (by omega),
    Nat.add_sub_cancel]

theorem WellFormed.addColumn : (t.addColumn values).WellFormed where
  rectangular := RowMatrix.isRectangular_insertColumn hwf.rectangular (by rw [hwf.nrColumns_matrix]; omega)
  rows_pos := by
    show 0 < (t.matrix.insertColumn t.nrColumns values).nrRows
    rw [RowMatrix.nrRows_insertColumn (hlen.trans hwf.nrRows_matrix.symm)]
    exact hwf.rows_pos
  columns_pos := Nat.succ_pos _
  basis_length := by
    rw [hwf.nrRows_addColumn hlen]
    exact hwf.basis_length
  basis_nodup := hwf.basis_nodup
  basis_lt := by
    intro j hj
    rw [hwf.nrColumns_addColumn]
    exact (hwf.basis_lt j hj).trans (Nat.lt_succ_self _)
  mask_length := by
    rw [hwf.nrColumns_addColumn]
    simp [Tableau.addColumn, hwf.mask_length]
  mask_iff := by
    intro j
    show (t.basicMask ++ [false]).getD j false = true ↔ j ∈ t.basis
    rw [← hwf.mask_iff, isBasic]
    rcases lt_or_ge j t.basicMask.length with hj | hj
    · rw [List.getD_append _ _ _ _ hj]
    · rw [List.getD_append_right _ _ _ _ hj, List.getD_eq_default _ _ hj]
      cases j - t.basicMask.length <;> simp

theorem UnitAt.addColumn {columns : List ℕ} (h : t.UnitAt columns) : (t.addColumn values).UnitAt columns := by
  refine ⟨?_, fun j hj => ?_, fun i hi k hk => ?_, fun i hi => ?_⟩
  · rw [hwf.nrRows_addColumn hlen, h.length_eq]
  · rw [hwf.nrColumns_addColumn]
    exact (h.lt j hj).trans (Nat.lt_succ_self _)
  · rw [hwf.nrRows_addColumn hlen] at hi hk
    rw [Tableau.entry, hwf.matrix_entry_addColumn_of_lt hlen (by omega) (h.getD_lt hi)]
    exact h.entry i hi k hk
  · rw [hwf.nrRows_addColumn hlen] at hi
    rw [relativeCost, hwf.matrix_entry_addColumn_of_lt hlen (by omega) (h.getD_lt hi)]
    exact h.cost i hi

end AddColumn

theorem AtBasis.addColumn {values : List ℚ} (h : t.AtBasis) (hlen : values.length = t.nrRows + 1) :
    (t.addColumn values).AtBasis :=
  ⟨h.wellFormed.addColumn hlen, UnitAt.addColumn h.wellFormed hlen h.unitAt⟩

/-- The second tableau has one more column, in the last place, and otherwise the entries of the first. -/
structure Widens (t u : Tableau ℚ) : Prop where
  nrRows_eq : u.nrRows = t.nrRows
  nrColumns_eq : u.nrColumns = t.nrColumns + 1
  entry_eq : ∀ i < t.nrRows, ∀ j < t.nrColumns, u.entry i j = t.entry i j
  rhs_eq : ∀ i < t.nrRows, u.rhs i = t.rhs i
  relativeCost_eq : ∀ j < t.nrColumns, u.relativeCost j = t.relativeCost j
  objectiveValue_eq : u.objectiveValue = t.objectiveValue

theorem WellFormed.widens_addColumn {values : List ℚ} (hwf : t.WellFormed) (hlen : values.length = t.nrRows + 1) :
    t.Widens (t.addColumn values) where
  nrRows_eq := hwf.nrRows_addColumn hlen
  nrColumns_eq := hwf.nrColumns_addColumn
  entry_eq i hi j hj := hwf.matrix_entry_addColumn_of_lt hlen (by omega) hj
  rhs_eq i hi := hwf.matrix_entry_addColumn_last hlen (by omega)
  relativeCost_eq j hj := hwf.matrix_entry_addColumn_of_lt hlen (by omega) hj
  objectiveValue_eq := hwf.matrix_entry_addColumn_last hlen (by omega)

/-- Widening a problem by the same column in two ways, both times written in the same basis. -/
theorem Widens.equivalent {columns : List ℕ} {t' u u' : Tableau ℚ} (hu : t.Widens u) (hu' : t'.Widens u')
    (ht : t.UnitAt columns) (ht' : t'.UnitAt columns) (heq : t.Equivalent t')
    (hentry : ∀ i < t.nrRows, u'.entry i t.nrColumns = u.entry i t.nrColumns)
    (hcost : u'.relativeCost t.nrColumns = u.relativeCost t.nrColumns) : u.Equivalent u' := by
  have hrows := heq.nrRows_eq
  have hcolumns := heq.nrColumns_eq
  refine Equivalent.of_entry_eq ?_ ?_ (fun i hi j hj => ?_) (fun i hi => ?_) (fun j hj => ?_) ?_
  · rw [hu'.nrRows_eq, hu.nrRows_eq, hrows]
  · rw [hu'.nrColumns_eq, hu.nrColumns_eq, hcolumns]
  · rw [hu.nrRows_eq] at hi
    rw [hu.nrColumns_eq] at hj
    rcases Nat.lt_succ_iff_lt_or_eq.mp hj with hj | rfl
    · rw [hu.entry_eq i hi j hj, hu'.entry_eq i (by omega) j (by omega), ht.entry_eq ht' heq hi hj]
    · exact hentry i hi
  · rw [hu.nrRows_eq] at hi
    rw [hu.rhs_eq i hi, hu'.rhs_eq i (by omega), ht.rhs_eq ht' heq hi]
  · rw [hu.nrColumns_eq] at hj
    rcases Nat.lt_succ_iff_lt_or_eq.mp hj with hj | rfl
    · rw [hu.relativeCost_eq j hj, hu'.relativeCost_eq j (by omega), ht.relativeCost_eq ht' heq hj]
    · exact hcost
  · rw [hu.objectiveValue_eq, hu'.objectiveValue_eq, ht.objectiveValue_eq ht' heq]

/-! ### Overwritten entries -/

section SetEntries

variable {M : RowMatrix ℚ}

theorem WellFormed.shape_setEntries (h : t.WellFormed) (cells : List (ℕ × ℕ × ℚ)) :
    ({ t with matrix := t.matrix.setEntries cells } : Tableau ℚ).nrRows = t.nrRows ∧
      ({ t with matrix := t.matrix.setEntries cells } : Tableau ℚ).nrColumns = t.nrColumns := by
  obtain ⟨-, hrows, hcolumns⟩ := RowMatrix.setEntries_shape cells h.rectangular
  rw [nrRows, hrows, nrColumns, hcolumns]
  exact ⟨rfl, rfl⟩

theorem AtBasis.withMatrix (h : t.AtBasis) (hrect : M.IsRectangular) (hrows : M.nrRows = t.matrix.nrRows)
    (hcolumns : M.nrColumns = t.matrix.nrColumns)
    (hbasis : ∀ i < t.nrRows + 1, ∀ j ∈ t.basis, M.entry i j = t.matrix.entry i j) :
    ({ t with matrix := M } : Tableau ℚ).AtBasis := by
  have hrows' : ({ t with matrix := M } : Tableau ℚ).nrRows = t.nrRows := by rw [nrRows, hrows, nrRows]
  have hcolumns' : ({ t with matrix := M } : Tableau ℚ).nrColumns = t.nrColumns := by
    rw [nrColumns, hcolumns, nrColumns]
  have hwf := h.wellFormed
  refine ⟨⟨hrect, ?_, ?_, ?_, hwf.basis_nodup, ?_, ?_, hwf.mask_iff⟩, ?_, ?_, fun i hi k hk => ?_, fun i hi => ?_⟩
  · exact hrows.symm ▸ hwf.rows_pos
  · exact hcolumns.symm ▸ hwf.columns_pos
  · exact hrows'.symm ▸ hwf.basis_length
  · exact hcolumns'.symm ▸ hwf.basis_lt
  · exact hcolumns'.symm ▸ hwf.mask_length
  · exact hrows'.symm ▸ hwf.basis_length
  · exact hcolumns'.symm ▸ hwf.basis_lt
  · rw [hrows'] at hi hk
    exact (hbasis (k + 1) (by omega) _ (h.unitAt.getD_mem hi)).trans (h.unitAt.entry i hi k hk)
  · rw [hrows'] at hi
    exact (hbasis 0 (by omega) _ (h.unitAt.getD_mem hi)).trans (h.unitAt.cost i hi)

theorem foldl_setRelativeCost (pairs : List (ℕ × ℚ)) (value : ℚ → ℚ) (t : Tableau ℚ) :
    pairs.foldl (fun t p => t.setRelativeCost p.1 (value p.2)) t =
      { t with matrix := t.matrix.setEntries (pairs.map fun p => (0, p.1, value p.2)) } := by
  induction pairs generalizing t with
  | nil => rfl
  | cons p rest ih =>
    rw [List.foldl_cons, ih]
    rfl

theorem foldl_setRhs (pairs : List (ℕ × ℚ)) (value : ℚ → ℚ) (t : Tableau ℚ) :
    pairs.foldl (fun t p => t.setRhs p.1 (value p.2)) t =
      { t with matrix := t.matrix.setEntries (pairs.map fun p => (p.1 + 1, t.nrColumns, value p.2)) } := by
  induction pairs generalizing t with
  | nil => rfl
  | cons p rest ih =>
    rw [List.foldl_cons, ih]
    rfl

theorem foldl_setEntry (i : ℕ) (pairs : List (ℕ × ℚ)) (value : ℚ → ℚ) (t : Tableau ℚ) :
    pairs.foldl (fun t p => t.setEntry i p.1 (value p.2)) t =
      { t with matrix := t.matrix.setEntries (pairs.map fun p => (i + 1, p.1, value p.2)) } := by
  induction pairs generalizing t with
  | nil => rfl
  | cons p rest ih =>
    rw [List.foldl_cons, ih]
    rfl

theorem foldl_foldl_setEntry (rows columns : List (ℕ × ℚ)) (value : ℚ → ℚ → ℚ) (t : Tableau ℚ) :
    rows.foldl (fun t p => columns.foldl (fun t r => t.setEntry p.1 r.1 (value p.2 r.2)) t) t =
      { t with
        matrix := t.matrix.setEntries (rows.flatMap fun p => columns.map fun r => (p.1 + 1, r.1, value p.2 r.2)) } := by
  induction rows generalizing t with
  | nil => rfl
  | cons p rest ih =>
    rw [List.foldl_cons, foldl_setEntry p.1 columns (value p.2), ih, List.flatMap_cons]
    simp only [RowMatrix.setEntries, List.foldl_append]

end SetEntries

end LinearProgramming.Tableau
