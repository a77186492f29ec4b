import LinearProgramming.Proofs.Tableau.Solutions

/-! # Tableaus at a basis

`Tableau.UnitAt` says that given columns are the unit vectors of the rows and have no relative cost, and
`Tableau.AtBasis` that this holds of the columns that the tableau keeps as its basis. The solutions are then the
graph of an affine map: the other columns are free, and `Tableau.completion` gives the values of the basic ones. The
basic solution is the completion of zero. Hence a tableau is determined by its basis and its solutions
(`UnitAt.entry_eq`, `UnitAt.rhs_eq`, `UnitAt.relativeCost_eq`). -/

namespace LinearProgramming.Tableau

open Finset

variable {t u v : Tableau ℚ} {x y : ℕ → ℚ} {columns : List ℕ} {i j k : ℕ}

/-- The given columns are the unit vectors of the constraint rows, in their order, with relative cost zero. -/
structure UnitAt (t : Tableau ℚ) (columns : List ℕ) : Prop where
  length_eq : columns.length = t.nrRows
  lt : ∀ j ∈ columns, j < t.nrColumns
  entry : ∀ i < t.nrRows, ∀ k < t.nrRows, t.entry k (columns.getD i 0) = if k = i then 1 else 0
  cost : ∀ i < t.nrRows, t.relativeCost (columns.getD i 0) = 0

/-- The tableau is well formed and its basic columns are exact unit vectors. -/
structure AtBasis (t : Tableau ℚ) : Prop where
  wellFormed : t.WellFormed
  unitAt : t.UnitAt t.basis

/-- The second tableau writes the first one in a basis. -/
structure Rewrites (t u : Tableau ℚ) : Prop where
  atBasis : u.AtBasis
  equivalent : t.Equivalent u

theorem Rewrites.refl (h : t.AtBasis) : t.Rewrites t := ⟨h, Equivalent.refl t⟩

theorem Rewrites.trans (h : t.Rewrites u) (h' : u.Rewrites v) : t.Rewrites v :=
  ⟨h'.atBasis, h.equivalent.trans h'.equivalent⟩

/-- The mask that `Tableau.ofMatrix` computes agrees with the basis. -/
theorem wellFormed_ofMatrix {α : Type} {matrix : RowMatrix α} {basis : List ℕ} (hrect : matrix.IsRectangular)
    (hrows : 0 < matrix.nrRows) (hcolumns : 0 < matrix.nrColumns) (hlen : basis.length = matrix.nrRows - 1)
    (hnodup : basis.Nodup) (hlt : ∀ j ∈ basis, j < matrix.nrColumns - 1) : (ofMatrix matrix basis).WellFormed where
  rectangular := hrect
  rows_pos := hrows
  columns_pos := hcolumns
  basis_length := hlen
  basis_nodup := hnodup
  basis_lt := hlt
  mask_length := by simp [ofMatrix, nrColumns]
  mask_iff := by
    intro j
    show ((List.range (matrix.nrColumns - 1)).map basis.contains).getD j false = true ↔ j ∈ basis
    rw [List.getD_eq_getElem?_getD, List.getElem?_map]
    by_cases hj : j < matrix.nrColumns - 1
    · simp [List.getElem?_range hj]
    · rw [List.getElem?_eq_none (by simpa using hj)]
      simp only [Option.map_none, Option.getD_none, Bool.false_eq_true, false_iff]
      intro hmem
      exact hj (hlt j hmem)

/-- One more row and one more column, which is basic in that row. -/
theorem WellFormed.appendBasic {α : Type} {t : Tableau α} (h : t.WellFormed) {matrix : RowMatrix α}
    (hrect : matrix.IsRectangular) (hrows : matrix.nrRows = t.nrRows + 2) (hcolumns : matrix.nrColumns = t.nrColumns + 2) :
    (⟨matrix, t.basis ++ [t.nrColumns], t.basicMask ++ [true]⟩ : Tableau α).WellFormed := by
  have hheight : matrix.nrRows - 1 = t.nrRows + 1 := by omega
  have hwidth : matrix.nrColumns - 1 = t.nrColumns + 1 := by omega
  refine ⟨hrect, hrows ▸ Nat.succ_pos _, hcolumns ▸ Nat.succ_pos _, ?_, ?_, fun j hj => ?_, ?_, fun j => ?_⟩
  · show (t.basis ++ [t.nrColumns]).length = matrix.nrRows - 1
    rw [hheight, List.length_append, h.basis_length, List.length_singleton]
  · rw [List.nodup_append]
    refine ⟨h.basis_nodup, List.nodup_singleton _, fun a ha b hb => ?_⟩
    have hlt := h.basis_lt a ha
    rw [List.mem_singleton] at hb
    omega
  · show j < matrix.nrColumns - 1
    rw [hwidth]
    rcases List.mem_append.mp hj with hj | hj
    · exact (h.basis_lt j hj).trans (Nat.lt_succ_self _)
    · rw [List.mem_singleton.mp hj]
      exact Nat.lt_succ_self _
  · show (t.basicMask ++ [true]).length = matrix.nrColumns - 1
    rw [hwidth, List.length_append, h.mask_length, List.length_singleton]
  · rw [List.mem_append, List.mem_singleton, ← h.mask_iff]
    show (t.basicMask ++ [true]).getD j false = true ↔ t.basicMask.getD j false = true ∨ _
    rw [← h.mask_length]
    rcases lt_trichotomy j t.basicMask.length with hj | hj | hj
    · rw [List.getD_append _ _ _ _ hj]
      simp only [hj.ne, or_false]
    · simp [hj]
    · rw [List.getD_eq_default _ _ (by simp; omega), List.getD_eq_default _ _ hj.le]
      simp only [hj.ne', or_false]

theorem isUnitColumn_zero_iff (t : Tableau ℚ) (i j : ℕ) :
    t.isUnitColumn i j 0 = true ↔ t.relativeCost j = 0 ∧ ∀ k < t.nrRows, t.entry k j = if k = i then 1 else 0 := by
  simp only [isUnitColumn, Bool.and_eq_true, Scalar.isZero_zero_iff, List.all_eq_true, List.mem_range, sub_eq_zero,
    beq_iff_eq]

theorem getD_mem {xs : List ℕ} (hi : i < xs.length) : xs.getD i 0 ∈ xs := by
  rw [List.getD_eq_getElem _ _ hi]
  exact List.getElem_mem hi

theorem getD_idxOf {xs : List ℕ} (hj : j ∈ xs) : xs.getD (xs.idxOf j) 0 = j := by
  rw [List.getD_eq_getElem _ _ (List.idxOf_lt_length_iff.mpr hj)]
  exact List.getElem_idxOf _

namespace UnitAt

theorem getD_mem (h : t.UnitAt columns) (hi : i < t.nrRows) : columns.getD i 0 ∈ columns :=
  Tableau.getD_mem (by rw [h.length_eq]; exact hi)

theorem getD_lt (h : t.UnitAt columns) (hi : i < t.nrRows) : columns.getD i 0 < t.nrColumns :=
  h.lt _ (h.getD_mem hi)

theorem idxOf_lt (h : t.UnitAt columns) (hj : j ∈ columns) : columns.idxOf j < t.nrRows := by
  rw [← h.length_eq]
  exact List.idxOf_lt_length_iff.mpr hj

theorem getD_inj (h : t.UnitAt columns) (hi : i < t.nrRows) (hk : k < t.nrRows)
    (heq : columns.getD i 0 = columns.getD k 0) : i = k := by
  by_contra hne
  have hone := h.entry i hi i hi
  have hzero := h.entry k hk i hi
  rw [if_pos rfl] at hone
  rw [if_neg hne, ← heq, hone] at hzero
  exact one_ne_zero hzero

theorem idxOf_getD (h : t.UnitAt columns) (hi : i < t.nrRows) : columns.idxOf (columns.getD i 0) = i :=
  h.getD_inj (h.idxOf_lt (h.getD_mem hi)) hi (getD_idxOf (h.getD_mem hi))

theorem exists_row (h : t.UnitAt columns) (hj : j ∈ columns) : ∃ i < t.nrRows, columns.getD i 0 = j :=
  ⟨columns.idxOf j, h.idxOf_lt hj, getD_idxOf hj⟩

theorem entry_of_mem (h : t.UnitAt columns) (hj : j ∈ columns) (hi : i < t.nrRows) :
    t.entry i j = if i = columns.idxOf j then 1 else 0 := by
  have hentry := h.entry _ (h.idxOf_lt hj) i hi
  rwa [getD_idxOf hj] at hentry

theorem relativeCost_eq_zero (h : t.UnitAt columns) (hj : j ∈ columns) : t.relativeCost j = 0 := by
  have hcost := h.cost _ (h.idxOf_lt hj)
  rwa [getD_idxOf hj] at hcost

theorem nodup (h : t.UnitAt columns) : columns.Nodup := by
  rw [List.nodup_iff_injective_getElem]
  intro a b hab
  have ha : (a : ℕ) < t.nrRows := h.length_eq ▸ a.isLt
  have hb : (b : ℕ) < t.nrRows := h.length_eq ▸ b.isLt
  refine Fin.ext (h.getD_inj ha hb ?_)
  rw [List.getD_eq_getElem _ _ a.isLt, List.getD_eq_getElem _ _ b.isLt]
  exact hab

end UnitAt

/-! ### Free columns -/

def others (t : Tableau ℚ) (columns : List ℕ) : Finset ℕ := (range t.nrColumns).filter (· ∉ columns)

theorem mem_others : j ∈ t.others columns ↔ j < t.nrColumns ∧ j ∉ columns := by
  simp [others]

theorem others_eq (h : t.Equivalent u) : u.others columns = t.others columns := by
  rw [others, h.nrColumns_eq, others]

namespace UnitAt

/-- In a row, the unit columns contribute the value of the basic column of that row. -/
theorem sum_row (h : t.UnitAt columns) (hi : i < t.nrRows) (x : ℕ → ℚ) :
    ∑ j ∈ range t.nrColumns, t.entry i j * x j =
      x (columns.getD i 0) + ∑ j ∈ t.others columns, t.entry i j * x j := by
  rw [← Finset.sum_filter_add_sum_filter_not (range t.nrColumns) (· ∈ columns)]
  refine congrArg₂ (· + ·) ?_ rfl
  have hmem : columns.getD i 0 ∈ (range t.nrColumns).filter (· ∈ columns) := by
    simp only [Finset.mem_filter, Finset.mem_range]
    exact ⟨h.getD_lt hi, h.getD_mem hi⟩
  rw [Finset.sum_eq_single_of_mem _ hmem, h.entry i hi i hi, if_pos rfl, one_mul]
  intro j hj hne
  have hjmem : j ∈ columns := (Finset.mem_filter.mp hj).2
  rw [h.entry_of_mem hjmem hi, if_neg, zero_mul]
  intro heq
  exact hne (by rw [heq, getD_idxOf hjmem])

theorem sum_cost (h : t.UnitAt columns) (x : ℕ → ℚ) :
    ∑ j ∈ range t.nrColumns, t.relativeCost j * x j = ∑ j ∈ t.others columns, t.relativeCost j * x j := by
  rw [← Finset.sum_filter_add_sum_filter_not (range t.nrColumns) (· ∈ columns)]
  rw [Finset.sum_eq_zero, zero_add]
  · rfl
  · intro j hj
    rw [h.relativeCost_eq_zero (Finset.mem_filter.mp hj).2, zero_mul]

theorem satisfies_iff (h : t.UnitAt columns) (x : ℕ → ℚ) :
    t.Satisfies x ↔
      ∀ i < t.nrRows, x (columns.getD i 0) = t.rhs i - ∑ j ∈ t.others columns, t.entry i j * x j := by
  unfold Satisfies
  constructor
  · intro hx i hi
    rw [← hx i hi, h.sum_row hi, add_sub_cancel_right]
  · intro hx i hi
    rw [h.sum_row hi, hx i hi, sub_add_cancel]

theorem objectiveAt_eq (h : t.UnitAt columns) (x : ℕ → ℚ) :
    t.objectiveAt x = t.objectiveValue - ∑ j ∈ t.others columns, t.relativeCost j * x j := by
  rw [objectiveAt, h.sum_cost]

end UnitAt

/-- The solution in which the columns outside the list have the given values. -/
def completion (t : Tableau ℚ) (columns : List ℕ) (free : ℕ → ℚ) (j : ℕ) : ℚ :=
  if j ∈ columns then
    t.rhs (columns.idxOf j) - ∑ k ∈ t.others columns, t.entry (columns.idxOf j) k * free k
  else free j

theorem completion_of_notMem (free : ℕ → ℚ) (hj : j ∉ columns) : t.completion columns free j = free j :=
  if_neg hj

theorem sum_others_completion (free f : ℕ → ℚ) :
    ∑ j ∈ t.others columns, f j * t.completion columns free j = ∑ j ∈ t.others columns, f j * free j :=
  Finset.sum_congr rfl fun j hj => by rw [completion_of_notMem free (mem_others.mp hj).2]

namespace UnitAt

theorem completion_getD (h : t.UnitAt columns) (free : ℕ → ℚ) (hi : i < t.nrRows) :
    t.completion columns free (columns.getD i 0) =
      t.rhs i - ∑ k ∈ t.others columns, t.entry i k * free k := by
  rw [completion, if_pos (h.getD_mem hi), h.idxOf_getD hi]

theorem satisfies_completion (h : t.UnitAt columns) (free : ℕ → ℚ) :
    t.Satisfies (t.completion columns free) := by
  rw [h.satisfies_iff]
  intro i hi
  rw [h.completion_getD free hi, sum_others_completion]

theorem objectiveAt_completion (h : t.UnitAt columns) (free : ℕ → ℚ) :
    t.objectiveAt (t.completion columns free) =
      t.objectiveValue - ∑ j ∈ t.others columns, t.relativeCost j * free j := by
  rw [h.objectiveAt_eq, sum_others_completion]

end UnitAt

/-! ### One free column -/

theorem sum_others_single (hj : j ∈ t.others columns) (f : ℕ → ℚ) (δ : ℚ) :
    ∑ k ∈ t.others columns, f k * (if k = j then δ else 0) = f j * δ := by
  rw [Finset.sum_eq_single_of_mem j hj]
  · rw [if_pos rfl]
  · intro k _ hk
    rw [if_neg hk, mul_zero]

/-- The solution on the edge where column `j`, which is not in the list, has the value `δ` and all other columns
outside the list are zero. -/
def edge (t : Tableau ℚ) (columns : List ℕ) (j : ℕ) (δ : ℚ) : ℕ → ℚ :=
  t.completion columns fun k => if k = j then δ else 0

namespace UnitAt

theorem satisfies_edge (h : t.UnitAt columns) (j : ℕ) (δ : ℚ) : t.Satisfies (t.edge columns j δ) :=
  h.satisfies_completion _

theorem edge_getD (h : t.UnitAt columns) (hj : j ∈ t.others columns) (δ : ℚ) (hi : i < t.nrRows) :
    t.edge columns j δ (columns.getD i 0) = t.rhs i - t.entry i j * δ := by
  rw [edge, h.completion_getD _ hi, sum_others_single hj]

theorem objectiveAt_edge (h : t.UnitAt columns) (hj : j ∈ t.others columns) (δ : ℚ) :
    t.objectiveAt (t.edge columns j δ) = t.objectiveValue - t.relativeCost j * δ := by
  rw [edge, h.objectiveAt_completion, sum_others_single hj]

/-! ### A basis and the solutions determine the tableau -/

theorem rhs_eq (h : t.UnitAt columns) (hu : u.UnitAt columns) (heq : t.Equivalent u) (hi : i < t.nrRows) :
    u.rhs i = t.rhs i := by
  have hzero : ∀ (v : Tableau ℚ) (f : ℕ → ℚ), ∑ k ∈ v.others columns, f k * (0 : ℕ → ℚ) k = 0 :=
    fun v f => Finset.sum_eq_zero fun k _ => by simp
  have hsat : u.Satisfies (t.completion columns 0) := (heq.satisfies_iff _).mpr (h.satisfies_completion 0)
  have hrow := (hu.satisfies_iff _).mp hsat i (heq.nrRows_eq ▸ hi)
  rw [others_eq heq, sum_others_completion, hzero, sub_zero, h.completion_getD 0 hi, hzero, sub_zero] at hrow
  exact hrow.symm

theorem entry_eq (h : t.UnitAt columns) (hu : u.UnitAt columns) (heq : t.Equivalent u) (hi : i < t.nrRows)
    (hj : j < t.nrColumns) : u.entry i j = t.entry i j := by
  by_cases hmem : j ∈ columns
  · rw [h.entry_of_mem hmem hi, hu.entry_of_mem hmem (heq.nrRows_eq ▸ hi)]
  · have hother : j ∈ t.others columns := mem_others.mpr ⟨hj, hmem⟩
    have hsat : u.Satisfies (t.edge columns j 1) := (heq.satisfies_iff _).mpr (h.satisfies_edge j 1)
    have hrow := (hu.satisfies_iff _).mp hsat i (heq.nrRows_eq ▸ hi)
    rw [h.edge_getD hother 1 hi, others_eq heq, edge, sum_others_completion, sum_others_single hother,
      rhs_eq h hu heq hi] at hrow
    linarith

theorem objectiveValue_eq (h : t.UnitAt columns) (hu : u.UnitAt columns) (heq : t.Equivalent u) :
    u.objectiveValue = t.objectiveValue := by
  have hval := heq.objectiveAt_eq _ (h.satisfies_completion 0)
  rw [h.objectiveAt_completion, hu.objectiveAt_eq, others_eq heq, sum_others_completion] at hval
  simpa using hval

theorem relativeCost_eq (h : t.UnitAt columns) (hu : u.UnitAt columns) (heq : t.Equivalent u)
    (hj : j < t.nrColumns) : u.relativeCost j = t.relativeCost j := by
  by_cases hmem : j ∈ columns
  · rw [h.relativeCost_eq_zero hmem, hu.relativeCost_eq_zero hmem]
  · have hother : j ∈ t.others columns := mem_others.mpr ⟨hj, hmem⟩
    have hval := heq.objectiveAt_eq _ (h.satisfies_edge j 1)
    rw [h.objectiveAt_edge hother, hu.objectiveAt_eq, others_eq heq, edge, sum_others_completion,
      sum_others_single hother, objectiveValue_eq h hu heq] at hval
    linarith

theorem matrix_entry_eq (h : t.UnitAt columns) (hu : u.UnitAt columns) (heq : t.Equivalent u) (hi : i < t.nrRows + 1)
    (hj : j < t.nrColumns + 1) : u.matrix.entry i j = t.matrix.entry i j := by
  -- each of the four parts of the matrix is read by a function of its own
  rcases Nat.lt_succ_iff_lt_or_eq.mp hj with hj | rfl
  · cases i with
    | zero => exact relativeCost_eq h hu heq hj
    | succ i => exact entry_eq h hu heq (Nat.lt_of_succ_lt_succ hi) hj
  · rw [← heq.nrColumns_eq]
    cases i with
    | zero => simpa only [objectiveValue, heq.nrColumns_eq] using objectiveValue_eq h hu heq
    | succ i => simpa only [rhs, heq.nrColumns_eq] using rhs_eq h hu heq (Nat.lt_of_succ_lt_succ hi)

end UnitAt

/-- A tableau is determined by its basis and its solutions. -/
theorem AtBasis.eq_of_equivalent (ht : t.AtBasis) (hu : u.AtBasis) (heq : t.Equivalent u) (hbasis : u.basis = t.basis) :
    u = t := by
  have hmatrix : u.matrix = t.matrix := by
    refine RowMatrix.ext_entry hu.wellFormed.rectangular ht.wellFormed.rectangular ?_ ?_ fun i hi j hj => ?_
    · rw [hu.wellFormed.nrRows_matrix, ht.wellFormed.nrRows_matrix, heq.nrRows_eq]
    · rw [hu.wellFormed.nrColumns_matrix, ht.wellFormed.nrColumns_matrix, heq.nrColumns_eq]
    · rw [hu.wellFormed.nrRows_matrix, heq.nrRows_eq] at hi
      rw [hu.wellFormed.nrColumns_matrix, heq.nrColumns_eq] at hj
      exact ht.unitAt.matrix_entry_eq (hbasis ▸ hu.unitAt) heq hi hj
  have hmask : u.basicMask = t.basicMask := by
    refine List.ext_getElem ?_ fun j hj hj' => ?_
    · rw [hu.wellFormed.mask_length, ht.wellFormed.mask_length, heq.nrColumns_eq]
    · have hmark : u.isBasic j = t.isBasic j := by
        rw [Bool.eq_iff_iff, hu.wellFormed.mask_iff, ht.wellFormed.mask_iff, hbasis]
      rwa [isBasic, isBasic, List.getD_eq_getElem _ _ hj, List.getD_eq_getElem _ _ hj'] at hmark
  cases t
  cases u
  cases hmatrix
  cases hmask
  cases hbasis
  rfl

/-! ### The basic solution -/

/-- Writing a value for each column of a list without repetitions. -/
theorem getD_foldl_set (f : ℕ → ℚ) (columns : List ℕ) (hnodup : columns.Nodup) (first : ℕ) (values : List ℚ)
    (hlt : ∀ j ∈ columns, j < values.length) (j : ℕ) :
    ((columns.zipIdx first).foldl (fun values p => values.set p.1 (f p.2)) values).getD j 0 =
      if j ∈ columns then f (first + columns.idxOf j) else values.getD j 0 := by
  induction columns generalizing first values with
  | nil => simp
  | cons c rest ih =>
    obtain ⟨hc, hrest⟩ := List.nodup_cons.mp hnodup
    have hlt' : ∀ k ∈ rest, k < (values.set c (f first)).length := by
      intro k hk
      rw [List.length_set]
      exact hlt k (List.mem_cons_of_mem c hk)
    rw [List.zipIdx_cons, List.foldl_cons, ih hrest (first + 1) _ hlt',
      RowMatrix.getD_set _ (hlt c (List.mem_cons_self ..))]
    by_cases hj : j = c
    · rw [hj, if_neg hc, if_pos rfl, if_pos (List.mem_cons_self ..), List.idxOf_cons_self, add_zero]
    · by_cases hmem : j ∈ rest
      · rw [if_pos hmem, if_pos (List.mem_cons_of_mem c hmem), List.idxOf_cons_ne _ (Ne.symm hj)]
        congr 1
        omega
      · rw [if_neg hmem, if_neg hj, if_neg (by simp [hj, hmem])]

theorem length_foldl_set (f : ℕ → ℚ) (pairs : List (ℕ × ℕ)) (values : List ℚ) :
    (pairs.foldl (fun values p => values.set p.1 (f p.2)) values).length = values.length := by
  induction pairs generalizing values with
  | nil => rfl
  | cons p rest ih => rw [List.foldl_cons, ih, List.length_set]

@[simp] theorem length_basicSolution (t : Tableau ℚ) : t.basicSolution.length = t.nrColumns :=
  (length_foldl_set t.rhs _ _).trans List.length_replicate

/-- The column values of a list. -/
def ofList (xs : List ℚ) (j : ℕ) : ℚ := xs.getD j 0

theorem ofList_map_range (x : ℕ → ℚ) {n : ℕ} (hj : j < n) : ofList ((List.range n).map x) j = x j := by
  simp [ofList, hj]

theorem ofList_basicSolution_eq (hnodup : t.basis.Nodup) (hlt : ∀ j ∈ t.basis, j < t.nrColumns) (j : ℕ) :
    ofList t.basicSolution j = if j ∈ t.basis then t.rhs (t.basis.idxOf j) else 0 := by
  have hfold := getD_foldl_set t.rhs t.basis hnodup 0 (List.replicate t.nrColumns 0) (by simpa using hlt) j
  rw [Nat.zero_add] at hfold
  refine hfold.trans ?_
  split_ifs
  · rfl
  · by_cases hj : j < t.nrColumns
    · rw [List.getD_replicate 0 hj]
    · rw [List.getD_eq_default _ _ (by simpa using hj)]

theorem WellFormed.isBasic_or_eq_zero (h : t.WellFormed) (j : ℕ) :
    (∃ i < t.nrRows, t.basis.getD i 0 = j ∧ ofList t.basicSolution j = t.rhs i) ∨
      j ∉ t.basis ∧ ofList t.basicSolution j = 0 := by
  rw [ofList_basicSolution_eq h.basis_nodup h.basis_lt]
  split_ifs with hj
  · have hi := List.idxOf_lt_length_of_mem hj
    exact .inl ⟨_, h.basis_length ▸ hi, by rw [List.getD_eq_getElem _ _ hi, List.getElem_idxOf], rfl⟩
  · exact .inr ⟨hj, rfl⟩

theorem UnitAt.ofList_basicSolution (h : t.UnitAt t.basis) :
    ofList t.basicSolution = t.completion t.basis 0 := by
  funext j
  rw [ofList_basicSolution_eq h.nodup h.lt]
  unfold completion
  split_ifs
  · simp
  · rfl

theorem UnitAt.basicSolution_getD (h : t.UnitAt t.basis) (hi : i < t.nrRows) :
    ofList t.basicSolution (t.basis.getD i 0) = t.rhs i := by
  rw [h.ofList_basicSolution, h.completion_getD 0 hi]
  simp

theorem UnitAt.basicSolution_of_notMem (h : t.UnitAt t.basis) (hj : j ∉ t.basis) :
    ofList t.basicSolution j = 0 := by
  rw [h.ofList_basicSolution, completion_of_notMem 0 hj]
  rfl

theorem UnitAt.satisfies_basicSolution (h : t.UnitAt t.basis) : t.Satisfies (ofList t.basicSolution) := by
  rw [h.ofList_basicSolution]
  exact h.satisfies_completion 0

theorem UnitAt.objectiveAt_basicSolution (h : t.UnitAt t.basis) :
    t.objectiveAt (ofList t.basicSolution) = t.objectiveValue := by
  rw [h.ofList_basicSolution, h.objectiveAt_completion]
  simp

/-- No other solution is zero outside the basis. -/
theorem UnitAt.basicSolution_unique (h : t.UnitAt t.basis) {x : ℕ → ℚ} (hx : t.Satisfies x)
    (hzero : ∀ j ∉ t.basis, x j = 0) : ofList t.basicSolution = x := by
  funext j
  by_cases hmem : j ∈ t.basis
  · obtain ⟨i, hi, rfl⟩ := h.exists_row hmem
    have hrow := (h.satisfies_iff x).mp hx i hi
    rw [Finset.sum_eq_zero fun k hk => by rw [hzero k (mem_others.mp hk).2, mul_zero], sub_zero] at hrow
    rw [h.basicSolution_getD hi, hrow]
  · rw [h.basicSolution_of_notMem hmem, hzero j hmem]

theorem UnitAt.feasible_basicSolution (h : t.UnitAt t.basis) (hrhs : ∀ i < t.nrRows, 0 ≤ t.rhs i) :
    t.Feasible (ofList t.basicSolution) := by
  refine ⟨h.satisfies_basicSolution, fun j _ => ?_⟩
  by_cases hmem : j ∈ t.basis
  · obtain ⟨i, hi, rfl⟩ := h.exists_row hmem
    rw [h.basicSolution_getD hi]
    exact hrhs i hi
  · rw [h.basicSolution_of_notMem hmem]

/-! ### Checking for a basic feasible solution -/

theorem WellFormed.unitAt_of_hasUnitBasis (hwf : t.WellFormed) (h : t.hasUnitBasis 0 = true) : t.UnitAt t.basis := by
  have hunit : ∀ i < t.nrRows, t.isUnitColumn i (t.basis.getD i 0) 0 = true := by
    intro i hi
    have hi' : i < t.basis.length := by rw [hwf.basis_length]; exact hi
    rw [hasUnitBasis, List.all_eq_true] at h
    rw [List.getD_eq_getElem _ _ hi']
    exact h (t.basis[i], i) (List.mk_mem_zipIdx_iff_getElem?.mpr (List.getElem?_eq_getElem hi'))
  refine ⟨hwf.basis_length, hwf.basis_lt, fun i hi k hk => ?_, fun i hi => ?_⟩
  · exact ((t.isUnitColumn_zero_iff i _).mp (hunit i hi)).2 k hk
  · exact ((t.isUnitColumn_zero_iff i _).mp (hunit i hi)).1

theorem hasUnitBasis_of_unitAt (h : t.UnitAt t.basis) : t.hasUnitBasis 0 = true := by
  rw [hasUnitBasis, List.all_eq_true]
  rintro ⟨j, i⟩ hmem
  have hget : t.basis[i]? = some j := List.mk_mem_zipIdx_iff_getElem?.mp hmem
  have hi : i < t.nrRows := by
    rw [← h.length_eq]
    exact (List.getElem?_eq_some_iff.mp hget).1
  have hj : t.basis.getD i 0 = j := by rw [List.getD_eq_getElem?_getD, hget, Option.getD_some]
  subst hj
  exact (t.isUnitColumn_zero_iff i _).mpr ⟨h.cost i hi, h.entry i hi⟩

theorem rhs_nonneg_of_isPrimalFeasible (h : t.isPrimalFeasible 0 = true) : ∀ i < t.nrRows, 0 ≤ t.rhs i := by
  intro i hi
  rw [isPrimalFeasible, List.all_eq_true] at h
  have hrow := h i (List.mem_range.mpr hi)
  rw [Bool.not_eq_true', Bool.eq_false_iff, ne_eq, Scalar.isNegative_iff, neg_zero] at hrow
  exact not_lt.mp hrow

end LinearProgramming.Tableau
