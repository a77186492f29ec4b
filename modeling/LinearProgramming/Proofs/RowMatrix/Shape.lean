import Mathlib.Data.List.GetD
import Mathlib.Tactic.SplitIfs
import LinearProgramming.RowMatrix.Inverse

/-! # Shapes of matrices

What the operations on matrices do to the number of rows and columns, and that they keep all rows at one length. The
values play no role, so that nothing is assumed about the arithmetic. `RowMatrix.HasShape` collects the three facts,
and an inversion that succeeds gives a square matrix of the same size (`HasShape.invert`). -/

namespace LinearProgramming.RowMatrix

variable {α : Type} {M N : RowMatrix α} {i k m n r : ℕ} {values newRow : List α}

/-! ### Rows -/

theorem row_mem (hi : i < M.nrRows) : M.row i ∈ M.rows := by
  have hget : M.row i = M.rows.get ⟨i, hi⟩ := by
    simp [RowMatrix.row, List.getD_eq_getElem?_getD, List.getElem?_eq_getElem (show i < M.rows.length from hi)]
  rw [hget]
  exact List.get_mem ..

theorem length_row (hM : M.IsRectangular) (hi : i < M.nrRows) : (M.row i).length = M.nrColumns :=
  hM _ (row_mem hi)

theorem nrRows_swapRows (M : RowMatrix α) (p k : ℕ) : (M.swapRows p k).nrRows = M.nrRows := by
  simp [swapRows, nrRows]

theorem isRectangular_swapRows (hM : M.IsRectangular) (hi : i < M.nrRows) (hk : k < M.nrRows) :
    (M.swapRows i k).IsRectangular := by
  intro line hline
  rcases List.mem_or_eq_of_mem_set hline with hline | rfl
  · rcases List.mem_or_eq_of_mem_set hline with hline | rfl
    · exact hM line hline
    · exact length_row hM hk
  · exact length_row hM hi

theorem nrRows_pushRow (M : RowMatrix α) (newRow : List α) : (M.pushRow newRow).nrRows = M.nrRows + 1 := by
  simp [pushRow, nrRows]

theorem nrColumns_pushRow (h : 0 < M.nrRows) : (M.pushRow newRow).nrColumns = M.nrColumns := by
  have hne : M.rows ≠ [] := List.ne_nil_of_length_pos h
  simp [pushRow, hne]

theorem isRectangular_pushRow (hM : M.IsRectangular) (hpos : 0 < M.nrRows) (hlen : newRow.length = M.nrColumns) :
    (M.pushRow newRow).IsRectangular := by
  intro line hline
  rw [nrColumns_pushRow hpos]
  rcases List.mem_append.mp hline with h | h
  · exact hM line h
  · rw [List.mem_singleton.mp h, hlen]

/-! ### Columns and entries -/

theorem nrRows_insertColumn (hlen : values.length = M.nrRows) : (M.insertColumn k values).nrRows = M.nrRows := by
  have hlen' : values.length = M.rows.length := hlen
  simp [insertColumn, nrRows, hlen']

theorem isRectangular_insertColumn (hM : M.IsRectangular) (hk : k ≤ M.nrColumns) :
    (M.insertColumn k values).IsRectangular := by
  intro line hline
  obtain ⟨i, hi, rfl⟩ := List.mem_iff_getElem.mp hline
  simp only [insertColumn, List.length_zipWith] at hi
  have hi' : i < M.rows.length := by omega
  simp only [insertColumn, List.getElem_zipWith]
  rw [List.length_insertIdx_of_le_length (by rw [hM _ (List.getElem_mem hi')]; exact hk), hM _ (List.getElem_mem hi')]

theorem nrRows_setEntry (M : RowMatrix α) (i j : ℕ) (v : α) : (M.setEntry i j v).nrRows = M.nrRows := by
  simp [setEntry, nrRows]

theorem isRectangular_setEntry (hM : M.IsRectangular) (i j : ℕ) (v : α) : (M.setEntry i j v).IsRectangular := by
  intro line hline
  obtain ⟨k, hk, rfl⟩ := List.mem_iff_getElem.mp hline
  have hk' : k < M.rows.length := by simpa [setEntry] using hk
  have hrow : M.rows[k].length = M.nrColumns := hM _ (List.getElem_mem hk')
  simp only [setEntry, List.getElem_modify]
  split_ifs
  · rw [List.length_set, hrow]
  · exact hrow

/-! ### Shapes -/

/-- The matrix has so many rows and columns, and each row has an entry for every column. -/
structure HasShape (M : RowMatrix α) (m n : ℕ) : Prop where
  nrRows_eq : M.nrRows = m
  nrColumns_eq : M.nrColumns = n
  rectangular : M.IsRectangular

theorem hasShape_ofRows {rows : List (List α)} (hrows : rows.length = m + 1)
    (hcolumns : ∀ line ∈ rows, line.length = n) : (ofRows rows).HasShape (m + 1) n := by
  cases rows with
  | nil => cases hrows
  | cons first rest =>
    have hfirst : first.length = n := hcolumns first (List.mem_cons_self ..)
    exact ⟨hrows, hfirst, fun line hline => (hcolumns line hline).trans hfirst.symm⟩

namespace HasShape

theorem swapRows (h : M.HasShape m n) (hi : i < m) (hk : k < m) : (M.swapRows i k).HasShape m n :=
  ⟨(nrRows_swapRows M i k).trans h.nrRows_eq, h.nrColumns_eq,
    isRectangular_swapRows h.rectangular (h.nrRows_eq.symm ▸ hi) (h.nrRows_eq.symm ▸ hk)⟩

theorem insertColumn (h : M.HasShape m n) (hk : k ≤ n) (hlen : values.length = m) :
    (M.insertColumn k values).HasShape m (n + 1) :=
  ⟨(nrRows_insertColumn (hlen.trans h.nrRows_eq.symm)).trans h.nrRows_eq, congrArg (· + 1) h.nrColumns_eq,
    isRectangular_insertColumn h.rectangular (h.nrColumns_eq.symm ▸ hk)⟩

theorem pushRow (h : M.HasShape (m + 1) n) (hlen : newRow.length = n) : (M.pushRow newRow).HasShape (m + 2) n := by
  have hpos : 0 < M.nrRows := by
    rw [h.nrRows_eq]
    exact Nat.succ_pos m
  exact ⟨by rw [nrRows_pushRow, h.nrRows_eq], (nrColumns_pushRow hpos).trans h.nrColumns_eq,
    isRectangular_pushRow h.rectangular hpos (hlen.trans h.nrColumns_eq.symm)⟩

theorem setEntry (h : M.HasShape m n) (i j : ℕ) (v : α) : (M.setEntry i j v).HasShape m n :=
  ⟨(nrRows_setEntry M i j v).trans h.nrRows_eq, h.nrColumns_eq, isRectangular_setEntry h.rectangular i j v⟩

end HasShape

/-! ### Elimination -/

variable [Scalar α]

@[simp] theorem length_unitVector (n k : ℕ) : (unitVector n k : List α).length = n := by
  simp [unitVector]

@[simp] theorem nrRows_eliminate (M : RowMatrix α) (r : ℕ) (values : List α) :
    (M.eliminate r values).nrRows = M.nrRows := by
  simp [RowMatrix.eliminate, RowMatrix.nrRows]

@[simp] theorem nrColumns_eliminate (M : RowMatrix α) (r : ℕ) (values : List α) :
    (M.eliminate r values).nrColumns = M.nrColumns := rfl

theorem isRectangular_eliminate (hM : M.IsRectangular) (hr : r < M.nrRows) (values : List α) :
    (M.eliminate r values).IsRectangular := by
  intro line hline
  simp only [eliminate, List.mem_mapIdx] at hline
  obtain ⟨i, hi, rfl⟩ := hline
  have hcurrent : M.rows[i].length = M.nrColumns := hM _ (List.getElem_mem hi)
  rw [nrColumns_eliminate]
  split_ifs
  · rw [List.length_map, length_row hM hr]
  · exact hcurrent
  · rw [addMultiple, List.length_zipWith, List.length_map, length_row hM hr, hcurrent, Nat.min_self]

theorem HasShape.eliminate (h : M.HasShape m n) (hr : r < m) (values : List α) :
    (M.eliminate r values).HasShape m n :=
  ⟨(nrRows_eliminate M r values).trans h.nrRows_eq, h.nrColumns_eq,
    isRectangular_eliminate h.rectangular (h.nrRows_eq.symm ▸ hr) values⟩

/-! ### New matrices -/

theorem hasShape_identity (n : ℕ) : (identity n : RowMatrix α).HasShape n n := by
  refine ⟨by simp [identity, nrRows], rfl, fun line hline => ?_⟩
  obtain ⟨i, -, rfl⟩ := List.mem_map.mp hline
  exact length_unitVector n i

theorem hasShape_submatrix (M : RowMatrix α) (rows columns : List ℕ) :
    (M.submatrix rows columns).HasShape rows.length columns.length := by
  refine ⟨List.length_map .., rfl, fun line hline => ?_⟩
  obtain ⟨i, -, rfl⟩ := List.mem_map.mp hline
  exact List.length_map ..

theorem hasShape_mul (M N : RowMatrix α) : (M.mul N).HasShape M.nrRows N.nrColumns := by
  refine ⟨List.length_map .., rfl, fun line hline => ?_⟩
  obtain ⟨row, -, rfl⟩ := List.mem_map.mp hline
  exact (List.length_map ..).trans List.length_range

/-! ### Inversion -/

/-- The row that is brought up is one of the matrix. -/
theorem largestBelow_lt (hk : k < M.nrRows) : (M.largestBelow k).1 < M.nrRows := by
  refine List.foldlRecOn (motive := fun best : ℕ × α => best.1 < M.nrRows) _ _ hk fun best hbest candidate hmem => ?_
  obtain ⟨i, hi, rfl⟩ := List.mem_map.mp hmem
  have hlt : i < M.nrRows := by
    have := List.mem_range'_1.mp hi
    omega
  split_ifs
  · exact hlt
  · exact hbest

variable {ε : α} {state next : RowMatrix α × RowMatrix α}

theorem HasShape.invertStep (hwork : state.1.HasShape n n) (hinverse : state.2.HasShape n n) (hk : k < n)
    (hok : RowMatrix.invertStep ε state k = .ok next) : next.1.HasShape n n ∧ next.2.HasShape n n := by
  have hp : (state.1.largestBelow k).1 < n := by
    have hlt : (state.1.largestBelow k).1 < state.1.nrRows := largestBelow_lt (hwork.nrRows_eq.symm ▸ hk)
    rwa [hwork.nrRows_eq] at hlt
  unfold RowMatrix.invertStep at hok
  generalize state.1.largestBelow k = found at hok hp
  obtain ⟨p, magnitude⟩ := found
  simp only at hok hp
  split_ifs at hok
  obtain rfl := Except.ok.inj hok
  exact ⟨(hwork.swapRows hp hk).eliminate hk _, (hinverse.swapRows hp hk).eliminate hk _⟩

theorem HasShape.foldlM_invertStep {columns : List ℕ} (hwork : state.1.HasShape n n)
    (hinverse : state.2.HasShape n n) (hcolumns : ∀ k ∈ columns, k < n)
    (hok : columns.foldlM (RowMatrix.invertStep ε) state = .ok next) : next.2.HasShape n n := by
  induction columns generalizing state with
  | nil =>
    obtain rfl := Except.ok.inj hok
    exact hinverse
  | cons k rest ih =>
    rw [List.foldlM_cons] at hok
    cases hstep : RowMatrix.invertStep ε state k with
    | error e =>
      rw [hstep] at hok
      cases hok
    | ok mid =>
      rw [hstep] at hok
      obtain ⟨hwork', hinverse'⟩ := HasShape.invertStep hwork hinverse (hcolumns k (List.mem_cons_self ..)) hstep
      exact ih hwork' hinverse' (fun j hj => hcolumns j (List.mem_cons_of_mem k hj)) hok

theorem HasShape.invert (h : M.HasShape n n) (hok : M.invert ε = .ok N) : N.HasShape n n := by
  unfold RowMatrix.invert at hok
  rw [h.nrRows_eq] at hok
  cases hfold : (List.range n).foldlM (RowMatrix.invertStep ε) (M, identity n) with
  | error e =>
    rw [hfold] at hok
    cases hok
  | ok last =>
    rw [hfold] at hok
    obtain rfl := Except.ok.inj hok
    exact foldlM_invertStep h (hasShape_identity n) (fun k hk => List.mem_range.mp hk) hfold

end LinearProgramming.RowMatrix
