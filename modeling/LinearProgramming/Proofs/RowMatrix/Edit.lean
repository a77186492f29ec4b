import LinearProgramming.Proofs.RowMatrix.Elimination

/-! # Editing a matrix, entry by entry

A new column, a new row and overwritten entries. Each operation is described by what it does to single entries. -/

namespace LinearProgramming.RowMatrix

variable {M : RowMatrix ℚ} {i j k : ℕ} {values newRow : List ℚ}

/-! ### Columns -/

theorem row_insertColumn (hlen : values.length = M.nrRows) (hi : i < M.nrRows) :
    (M.insertColumn k values).row i = (M.row i).insertIdx k (values.getD i 0) := by
  have hi' : i < M.rows.length := hi
  have hv : i < values.length := by omega
  simp [insertColumn, row, hi', hv]

theorem entry_insertColumn (hM : M.IsRectangular) (hlen : values.length = M.nrRows) (hk : k ≤ M.nrColumns)
    (hi : i < M.nrRows) (j : ℕ) :
    (M.insertColumn k values).entry i j =
      if j < k then M.entry i j else if j = k then values.getD i 0 else M.entry i (j - 1) := by
  have hrow := length_row hM hi
  unfold entry
  rw [row_insertColumn hlen hi]
  simp only [List.getD_eq_getElem?_getD, List.getElem?_insertIdx]
  split_ifs with h1 h2 h3
  · rfl
  · rfl
  · omega
  · rfl

/-! ### Rows -/

theorem row_pushRow (hi : i < M.nrRows) : (M.pushRow newRow).row i = M.row i :=
  List.getD_append _ _ _ _ hi

theorem row_pushRow_self (M : RowMatrix ℚ) (newRow : List ℚ) : (M.pushRow newRow).row M.nrRows = newRow := by
  have hself : (M.rows ++ [newRow]).getD M.rows.length [] = newRow := by simp
  exact hself

/-! ### Entries -/

/-- Overwrite entries, given by row, column and value. -/
def setEntries (M : RowMatrix ℚ) (cells : List (ℕ × ℕ × ℚ)) : RowMatrix ℚ :=
  cells.foldl (fun M cell => M.setEntry cell.1 cell.2.1 cell.2.2) M

theorem row_setEntry (M : RowMatrix ℚ) (i j : ℕ) (v : ℚ) (k : ℕ) :
    (M.setEntry i j v).row k = if k = i then (M.row k).set j v else M.row k := by
  simp only [row, setEntry, List.getD_eq_getElem?_getD, List.getElem?_modify]
  by_cases hk : k = i
  · simp only [if_pos hk.symm, if_pos hk]
    cases M.rows[k]? <;> simp
  · simp only [if_neg (Ne.symm hk), if_neg hk]
    cases M.rows[k]? <;> simp

theorem setEntries_shape (cells : List (ℕ × ℕ × ℚ)) (hM : M.IsRectangular) :
    (M.setEntries cells).IsRectangular ∧ (M.setEntries cells).nrRows = M.nrRows ∧
      (M.setEntries cells).nrColumns = M.nrColumns := by
  refine List.foldlRecOn (motive := fun N : RowMatrix ℚ => N.IsRectangular ∧ N.nrRows = M.nrRows ∧ N.nrColumns = M.nrColumns)
    cells _ ⟨hM, rfl, rfl⟩ fun N hN cell _ => ⟨isRectangular_setEntry hN.1 _ _ _, ?_, hN.2.2⟩
  rw [← hN.2.1]
  exact nrRows_setEntry ..

theorem entry_setEntries_of_notMem {cells : List (ℕ × ℕ × ℚ)} (h : ∀ cell ∈ cells, cell.1 = i → cell.2.1 ≠ j) :
    (M.setEntries cells).entry i j = M.entry i j := by
  refine List.foldlRecOn (motive := fun N : RowMatrix ℚ => N.entry i j = M.entry i j) cells _ rfl fun N hN cell hcell => ?_
  rw [← hN, entry, row_setEntry]
  split_ifs with hi
  · rw [List.getD_eq_getElem?_getD, List.getElem?_set_ne (h cell hcell hi.symm), ← List.getD_eq_getElem?_getD]
    rfl
  · rfl

/-- A cell that is written gets its value, if no other value is written into it. -/
theorem entry_setEntries_of_mem {cells : List (ℕ × ℕ × ℚ)} {v : ℚ} (hM : M.IsRectangular) (hi : i < M.nrRows)
    (hj : j < M.nrColumns) (hmem : (i, j, v) ∈ cells)
    (huniq : ∀ cell ∈ cells, cell.1 = i → cell.2.1 = j → cell.2.2 = v) : (M.setEntries cells).entry i j = v := by
  induction cells generalizing M with
  | nil => cases hmem
  | cons cell rest ih =>
    have hM' := isRectangular_setEntry hM cell.1 cell.2.1 cell.2.2
    have hi' : i < (M.setEntry cell.1 cell.2.1 cell.2.2).nrRows := by simpa [setEntry, nrRows] using hi
    show ((M.setEntry cell.1 cell.2.1 cell.2.2).setEntries rest).entry i j = v
    by_cases hlater : (i, j, v) ∈ rest
    · exact ih hM' hi' hj hlater fun c hc => huniq c (List.mem_cons_of_mem cell hc)
    · obtain rfl : (i, j, v) = cell := (List.mem_cons.mp hmem).resolve_right hlater
      rw [entry_setEntries_of_notMem, entry, row_setEntry, if_pos rfl, getD_set _ (by rw [length_row hM hi]; exact hj),
        if_pos rfl]
      intro c hc hci hcj
      have hcv := huniq c (List.mem_cons_of_mem _ hc) hci hcj
      exact hlater (by rw [← hci, ← hcj, ← hcv]; exact hc)

end LinearProgramming.RowMatrix
