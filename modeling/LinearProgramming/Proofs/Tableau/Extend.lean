import LinearProgramming.Proofs.RowMatrix.Edit
import LinearProgramming.Proofs.Tableau.Reduce

/-! # Solutions of an extended tableau

A new constraint is reduced by the rows above it before it is appended. The new tableau has the solutions of the old
one that satisfy the new constraint with its slack (`AtBasis.satisfies_addInequality`), and it is at a basis again
(`AtBasis.addInequality`). If the constraint has no entries in basic columns, its rows are appended as they are
(`AtBasis.appends_addConstraint`). -/

namespace LinearProgramming

open Finset

namespace Tableau

variable {t : Tableau ℚ} {x : ℕ → ℚ} {i j k : ℕ}

/-! ### A new inequality -/

section AddInequality

variable {coefficients : List ℚ} {sign rhs : ℚ}

/-- The new row before its reduction: coefficients, slack and right hand side. -/
def inequalityRow (t : Tableau ℚ) (coefficients : List ℚ) (sign rhs : ℚ) : List ℚ :=
  coefficients.map (sign * ·) ++ List.replicate (t.nrColumns - coefficients.length) 0 ++ [1, sign * rhs]

/-- The matrix with an empty column before the right hand sides. -/
def widened (t : Tableau ℚ) : RowMatrix ℚ :=
  t.matrix.insertColumn t.nrColumns (List.replicate t.matrix.nrRows 0)

/-- The new row, reduced by all constraint rows. -/
def reducedRow (t : Tableau ℚ) (coefficients : List ℚ) (sign rhs : ℚ) : List ℚ :=
  (t.basis.zip (t.widened.rows.drop 1)).foldl (fun r p => clearBasic r p.1 p.2)
    (t.inequalityRow coefficients sign rhs)

theorem matrix_addInequality (t : Tableau ℚ) (coefficients : List ℚ) (sign rhs : ℚ) :
    (t.addInequality coefficients sign rhs).matrix =
      t.widened.pushRow (t.reducedRow coefficients sign rhs) := rfl

theorem basis_addInequality (t : Tableau ℚ) (coefficients : List ℚ) (sign rhs : ℚ) :
    (t.addInequality coefficients sign rhs).basis = t.basis ++ [t.nrColumns] := rfl

theorem length_inequalityRow (hlen : coefficients.length ≤ t.nrColumns) :
    (t.inequalityRow coefficients sign rhs).length = t.nrColumns + 2 := by
  simp only [inequalityRow, List.length_append, List.length_map, List.length_replicate, List.length_cons,
    List.length_nil]
  omega

theorem getD_inequalityRow (hlen : coefficients.length ≤ t.nrColumns) (hj : j < t.nrColumns) :
    (t.inequalityRow coefficients sign rhs).getD j 0 = sign * coefficients.getD j 0 := by
  rw [inequalityRow, List.getD_append _ _ _ _ (by simp; omega)]
  by_cases h : j < coefficients.length
  · rw [List.getD_append _ _ _ _ (by simpa using h)]
    simp [h]
  · rw [List.getD_append_right _ _ _ _ (by simpa using h), List.getD_replicate 0 (by simp; omega),
      List.getD_eq_default _ _ (not_lt.mp h), mul_zero]

theorem getD_inequalityRow_slack (hlen : coefficients.length ≤ t.nrColumns) :
    (t.inequalityRow coefficients sign rhs).getD t.nrColumns 0 = 1 := by
  have hpre : (coefficients.map (sign * ·) ++ List.replicate (t.nrColumns - coefficients.length) 0).length =
      t.nrColumns := by simp; omega
  rw [inequalityRow, List.getD_append_right _ _ _ _ hpre.le, hpre, Nat.sub_self]
  rfl

theorem getD_inequalityRow_rhs (hlen : coefficients.length ≤ t.nrColumns) :
    (t.inequalityRow coefficients sign rhs).getD (t.nrColumns + 1) 0 = sign * rhs := by
  have hpre : (coefficients.map (sign * ·) ++ List.replicate (t.nrColumns - coefficients.length) 0).length =
      t.nrColumns := by simp; omega
  rw [inequalityRow, List.getD_append_right _ _ _ _ (by omega), hpre, Nat.add_sub_cancel_left]
  rfl

theorem WellFormed.nrRows_widened (h : t.WellFormed) : t.widened.nrRows = t.nrRows + 1 := by
  rw [widened, RowMatrix.nrRows_insertColumn List.length_replicate, h.nrRows_matrix]

theorem WellFormed.nrColumns_widened (h : t.WellFormed) : t.widened.nrColumns = t.nrColumns + 2 := by
  show t.matrix.nrColumns + 1 = _
  rw [h.nrColumns_matrix]

theorem WellFormed.entry_widened (h : t.WellFormed) (hi : i < t.nrRows + 1) (j : ℕ) :
    t.widened.entry i j =
      if j < t.nrColumns then t.matrix.entry i j
      else if j = t.nrColumns then 0 else t.matrix.entry i (j - 1) := by
  have hi' : i < t.matrix.nrRows := by rw [h.nrRows_matrix]; exact hi
  rw [widened, RowMatrix.entry_insertColumn h.rectangular List.length_replicate
    (by rw [h.nrColumns_matrix]; omega) hi', List.getD_replicate 0 hi']

theorem WellFormed.isRectangular_widened (h : t.WellFormed) : t.widened.IsRectangular :=
  RowMatrix.isRectangular_insertColumn h.rectangular (by rw [h.nrColumns_matrix]; omega)

/-- The pairs of basic columns and rows that reduce the new row. -/
theorem WellFormed.getElem_pairs (h : t.WellFormed) (hi : i < (t.basis.zip (t.widened.rows.drop 1)).length) :
    i < t.nrRows ∧ (t.basis.zip (t.widened.rows.drop 1))[i] = (t.basis.getD i 0, t.widened.row (i + 1)) := by
  have hi' := hi
  rw [List.length_zip, List.length_drop] at hi'
  have hrows : t.widened.rows.length = t.nrRows + 1 := h.nrRows_widened
  have hlt : i < t.nrRows := by omega
  refine ⟨hlt, ?_⟩
  rw [List.getElem_zip, List.getElem_drop, List.getD_eq_getElem _ _ (by omega)]
  have hrow : t.widened.row (i + 1) = t.widened.rows[1 + i] := by
    rw [RowMatrix.row, List.getD_eq_getElem _ _ (by omega)]
    congr 1
    omega
  rw [hrow]

theorem AtBasis.reducing (h : t.AtBasis) : Reducing (t.nrColumns + 2) (t.basis.zip (t.widened.rows.drop 1)) := by
  have hentry : ∀ i < t.nrRows, ∀ k < t.nrRows,
      (t.widened.row (k + 1)).getD (t.basis.getD i 0) 0 = if k = i then 1 else 0 := by
    intro i hi k hk
    have := h.wellFormed.entry_widened (i := k + 1) (by omega) (t.basis.getD i 0)
    rw [if_pos (h.unitAt.getD_lt hi)] at this
    rw [← h.unitAt.entry i hi k hk]
    exact this
  refine ⟨fun p hp => ?_, fun p hp => ?_, ?_⟩
  · obtain ⟨i, hi, rfl⟩ := List.mem_iff_getElem.mp hp
    obtain ⟨hlt, heq⟩ := h.wellFormed.getElem_pairs hi
    rw [heq, RowMatrix.length_row h.wellFormed.isRectangular_widened
      (by rw [h.wellFormed.nrRows_widened]; omega), h.wellFormed.nrColumns_widened]
  · obtain ⟨i, hi, rfl⟩ := List.mem_iff_getElem.mp hp
    obtain ⟨hlt, heq⟩ := h.wellFormed.getElem_pairs hi
    rw [heq, hentry i hlt i hlt, if_pos rfl]
  · rw [List.pairwise_iff_getElem]
    intro i k hi hk hik
    obtain ⟨hlti, heqi⟩ := h.wellFormed.getElem_pairs hi
    obtain ⟨hltk, heqk⟩ := h.wellFormed.getElem_pairs hk
    rw [heqi, heqk, hentry i hlti k hltk, if_neg (by omega)]

theorem AtBasis.length_reducedRow (h : t.AtBasis) (hlen : coefficients.length ≤ t.nrColumns) :
    (t.reducedRow coefficients sign rhs).length = t.nrColumns + 2 :=
  length_foldl_clearBasic h.reducing.length_eq (length_inequalityRow hlen)

theorem AtBasis.getD_reducedRow_basis (h : t.AtBasis) (hlen : coefficients.length ≤ t.nrColumns)
    (hi : i < t.nrRows) : (t.reducedRow coefficients sign rhs).getD (t.basis.getD i 0) 0 = 0 := by
  have hlength : i < (t.basis.zip (t.widened.rows.drop 1)).length := by
    have hrows : t.widened.rows.length = t.nrRows + 1 := h.wellFormed.nrRows_widened
    rw [List.length_zip, List.length_drop, h.wellFormed.basis_length, hrows]
    omega
  have hrow : (t.inequalityRow coefficients sign rhs).length = t.nrColumns + 2 := length_inequalityRow hlen
  have hzero := getD_foldl_clearBasic_eq_zero h.reducing hrow _ (List.getElem_mem hlength)
  rw [(h.wellFormed.getElem_pairs hlength).2] at hzero
  exact hzero

theorem AtBasis.getD_reducedRow_slack (h : t.AtBasis) (hlen : coefficients.length ≤ t.nrColumns) :
    (t.reducedRow coefficients sign rhs).getD t.nrColumns 0 = 1 := by
  refine (getD_foldl_clearBasic h.reducing (length_inequalityRow hlen) fun p hp => ?_).trans
    (getD_inequalityRow_slack hlen)
  obtain ⟨i, hi, rfl⟩ := List.mem_iff_getElem.mp hp
  obtain ⟨hlt, heq⟩ := h.wellFormed.getElem_pairs hi
  have hentry := h.wellFormed.entry_widened (i := i + 1) (by omega) t.nrColumns
  rw [if_neg (lt_irrefl _), if_pos rfl] at hentry
  rw [heq]
  exact hentry

theorem WellFormed.nrRows_addInequality (h : t.WellFormed) :
    (t.addInequality coefficients sign rhs).nrRows = t.nrRows + 1 := by
  rw [nrRows, matrix_addInequality, RowMatrix.nrRows_pushRow, h.nrRows_widened, Nat.add_sub_cancel]

theorem WellFormed.nrColumns_addInequality (h : t.WellFormed) :
    (t.addInequality coefficients sign rhs).nrColumns = t.nrColumns + 1 := by
  rw [nrColumns, matrix_addInequality, RowMatrix.nrColumns_pushRow (by rw [h.nrRows_widened]; omega),
    h.nrColumns_widened]
  omega

theorem WellFormed.matrix_entry_addInequality (h : t.WellFormed) (hi : i < t.nrRows + 1) (j : ℕ) :
    (t.addInequality coefficients sign rhs).matrix.entry i j = t.widened.entry i j := by
  rw [matrix_addInequality, RowMatrix.entry, RowMatrix.row_pushRow (by rw [h.nrRows_widened]; exact hi)]
  rfl

theorem WellFormed.matrix_entry_addInequality_last (h : t.WellFormed) (j : ℕ) :
    (t.addInequality coefficients sign rhs).matrix.entry (t.nrRows + 1) j =
      (t.reducedRow coefficients sign rhs).getD j 0 := by
  rw [matrix_addInequality, RowMatrix.entry, ← h.nrRows_widened, RowMatrix.row_pushRow_self]

theorem AtBasis.wellFormed_addInequality (h : t.AtBasis) (hlen : coefficients.length ≤ t.nrColumns) :
    (t.addInequality coefficients sign rhs).WellFormed := by
  have hwf := h.wellFormed
  have hpos : 0 < t.widened.nrRows := by
    rw [hwf.nrRows_widened]
    omega
  have hlength : (t.reducedRow coefficients sign rhs).length = t.widened.nrColumns := by
    rw [h.length_reducedRow hlen, hwf.nrColumns_widened]
  have hrows : (t.widened.pushRow (t.reducedRow coefficients sign rhs)).nrRows = t.nrRows + 2 := by
    rw [RowMatrix.nrRows_pushRow, hwf.nrRows_widened]
  have hcolumns : (t.widened.pushRow (t.reducedRow coefficients sign rhs)).nrColumns = t.nrColumns + 2 := by
    rw [RowMatrix.nrColumns_pushRow hpos, hwf.nrColumns_widened]
  exact hwf.appendBasic (RowMatrix.isRectangular_pushRow hwf.isRectangular_widened hpos hlength) hrows hcolumns

theorem AtBasis.addInequality (h : t.AtBasis) (hlen : coefficients.length ≤ t.nrColumns) :
    (t.addInequality coefficients sign rhs).AtBasis := by
  have hwf : (t.addInequality coefficients sign rhs).WellFormed := h.wellFormed_addInequality hlen
  have hbasis : ∀ i < t.nrRows, (t.basis ++ [t.nrColumns]).getD i 0 = t.basis.getD i 0 := fun i hi =>
    List.getD_append _ _ _ _ (by rw [h.wellFormed.basis_length]; exact hi)
  have hslack : (t.basis ++ [t.nrColumns]).getD t.nrRows 0 = t.nrColumns := by
    rw [← h.wellFormed.basis_length]
    simp
  refine ⟨hwf, hwf.basis_length, hwf.basis_lt, fun i hi k hk => ?_, fun i hi => ?_⟩
  · rw [h.wellFormed.nrRows_addInequality] at hi hk
    rw [basis_addInequality, entry]
    rcases Nat.lt_succ_iff_lt_or_eq.mp hi with hi | rfl
    · have hlt := h.unitAt.getD_lt hi
      rw [hbasis i hi]
      rcases Nat.lt_succ_iff_lt_or_eq.mp hk with hk | rfl
      · rw [h.wellFormed.matrix_entry_addInequality (by omega), h.wellFormed.entry_widened (by omega), if_pos hlt]
        exact h.unitAt.entry i hi k hk
      · rw [h.wellFormed.matrix_entry_addInequality_last, h.getD_reducedRow_basis hlen hi, if_neg (by omega)]
    · rw [hslack]
      rcases Nat.lt_succ_iff_lt_or_eq.mp hk with hk | rfl
      · rw [h.wellFormed.matrix_entry_addInequality (by omega), h.wellFormed.entry_widened (by omega),
          if_neg (lt_irrefl _), if_pos rfl, if_neg (by omega)]
      · rw [h.wellFormed.matrix_entry_addInequality_last, h.getD_reducedRow_slack hlen, if_pos rfl]
  · rw [h.wellFormed.nrRows_addInequality] at hi
    rw [basis_addInequality, relativeCost, h.wellFormed.matrix_entry_addInequality (by omega),
      h.wellFormed.entry_widened (by omega)]
    rcases Nat.lt_succ_iff_lt_or_eq.mp hi with hi | rfl
    · rw [hbasis i hi, if_pos (h.unitAt.getD_lt hi)]
      exact h.unitAt.cost i hi
    · rw [hslack, if_neg (lt_irrefl _), if_pos rfl]

theorem WellFormed.sum_widened (h : t.WellFormed) (hi : i < t.nrRows + 1) (x : ℕ → ℚ) :
    ∑ j ∈ range (t.nrColumns + 1), t.widened.entry i j * x j =
      ∑ j ∈ range t.nrColumns, t.matrix.entry i j * x j := by
  rw [Finset.sum_range_succ, h.entry_widened hi, if_neg (lt_irrefl _), if_pos rfl, zero_mul, add_zero]
  refine Finset.sum_congr rfl fun j hj => ?_
  rw [h.entry_widened hi, if_pos (Finset.mem_range.mp hj)]

theorem WellFormed.entry_widened_last (h : t.WellFormed) (hi : i < t.nrRows + 1) :
    t.widened.entry i (t.nrColumns + 1) = t.matrix.entry i t.nrColumns := by
  rw [h.entry_widened hi, if_neg (by omega), if_neg (by omega), Nat.add_sub_cancel]

/-- On solutions, the reduced row says what the inequality says. -/
theorem AtBasis.lineDot_reducedRow (h : t.AtBasis) (hlen : coefficients.length ≤ t.nrColumns)
    (hx : t.Satisfies x) :
    ∑ j ∈ range (t.nrColumns + 1), (t.reducedRow coefficients sign rhs).getD j 0 * x j -
        (t.reducedRow coefficients sign rhs).getD (t.nrColumns + 1) 0 =
      sign * ∑ j ∈ range t.nrColumns, coefficients.getD j 0 * x j + x t.nrColumns - sign * rhs := by
  rw [← lineDot_of_lt, reducedRow, sum_foldl_clearBasic h.reducing (length_inequalityRow hlen), lineDot_of_lt,
    Finset.sum_range_succ, getD_inequalityRow_slack hlen, getD_inequalityRow_rhs hlen, one_mul, Finset.mul_sum]
  · congr 2
    refine Finset.sum_congr rfl fun j hj => ?_
    rw [getD_inequalityRow hlen (Finset.mem_range.mp hj), mul_assoc]
  · intro p hp
    obtain ⟨i, hi, rfl⟩ := List.mem_iff_getElem.mp hp
    obtain ⟨hlt, heq⟩ := h.wellFormed.getElem_pairs hi
    rw [heq, lineDot_of_lt]
    show ∑ j ∈ range (t.nrColumns + 1), t.widened.entry (i + 1) j * x j -
      t.widened.entry (i + 1) (t.nrColumns + 1) = 0
    rw [h.wellFormed.sum_widened (by omega), h.wellFormed.entry_widened_last (by omega)]
    exact sub_eq_zero.mpr (hx i hlt)

theorem AtBasis.satisfies_addInequality (h : t.AtBasis) (hlen : coefficients.length ≤ t.nrColumns) (x : ℕ → ℚ) :
    (t.addInequality coefficients sign rhs).Satisfies x ↔
      t.Satisfies x ∧ sign * ∑ j ∈ range t.nrColumns, coefficients.getD j 0 * x j + x t.nrColumns = sign * rhs := by
  have hwf := h.wellFormed
  unfold Satisfies
  rw [hwf.nrRows_addInequality, Nat.forall_lt_succ_right]
  have hold : ∀ i < t.nrRows, ((∑ j ∈ range (t.addInequality coefficients sign rhs).nrColumns,
      (t.addInequality coefficients sign rhs).entry i j * x j = (t.addInequality coefficients sign rhs).rhs i) ↔
      ∑ j ∈ range t.nrColumns, t.entry i j * x j = t.rhs i) := by
    intro i hi
    simp only [entry, Tableau.rhs, hwf.nrColumns_addInequality]
    simp only [hwf.matrix_entry_addInequality (show i + 1 < t.nrRows + 1 by omega)]
    rw [hwf.sum_widened (by omega), hwf.entry_widened_last (by omega)]
  have hnew : t.Satisfies x → ((∑ j ∈ range (t.addInequality coefficients sign rhs).nrColumns,
      (t.addInequality coefficients sign rhs).entry t.nrRows j * x j =
        (t.addInequality coefficients sign rhs).rhs t.nrRows) ↔
      sign * ∑ j ∈ range t.nrColumns, coefficients.getD j 0 * x j + x t.nrColumns = sign * rhs) := by
    intro hx
    simp only [entry, Tableau.rhs, hwf.nrColumns_addInequality, hwf.matrix_entry_addInequality_last]
    rw [← sub_eq_zero, h.lineDot_reducedRow hlen hx, sub_eq_zero]
  constructor
  · rintro ⟨hrows, hlast⟩
    have hx : t.Satisfies x := fun i hi => (hold i hi).mp (hrows i hi)
    exact ⟨hx, (hnew hx).mp hlast⟩
  · rintro ⟨hx, hlast⟩
    exact ⟨fun i hi => (hold i hi).mpr (hx i hi), (hnew hx).mpr hlast⟩

theorem AtBasis.objectiveAt_addInequality (h : t.AtBasis) (x : ℕ → ℚ) :
    (t.addInequality coefficients sign rhs).objectiveAt x = t.objectiveAt x := by
  have hwf := h.wellFormed
  unfold objectiveAt
  simp only [objectiveValue, relativeCost, hwf.nrColumns_addInequality]
  simp only [hwf.matrix_entry_addInequality (Nat.succ_pos _)]
  rw [hwf.sum_widened (Nat.succ_pos _), hwf.entry_widened_last (Nat.succ_pos _)]

theorem AtBasis.feasible_of_addInequality (h : t.AtBasis) (hlen : coefficients.length ≤ t.nrColumns)
    (hx : (t.addInequality coefficients sign rhs).Feasible x) :
    t.Feasible x ∧ sign * ∑ j ∈ range t.nrColumns, coefficients.getD j 0 * x j ≤ sign * rhs := by
  obtain ⟨hsat, hrow⟩ := (h.satisfies_addInequality hlen x).mp hx.satisfies
  have hnonneg : ∀ j < t.nrColumns + 1, 0 ≤ x j :=
    fun j hj => hx.nonneg j (by rw [h.wellFormed.nrColumns_addInequality]; exact hj)
  refine ⟨⟨hsat, fun j hj => hnonneg j (by omega)⟩, ?_⟩
  linarith [hnonneg t.nrColumns (by omega)]

/-- The slack makes up for what the inequality leaves. -/
theorem AtBasis.exists_feasible_addInequality (h : t.AtBasis) (hlen : coefficients.length ≤ t.nrColumns)
    (hx : t.Feasible x) (hle : sign * ∑ j ∈ range t.nrColumns, coefficients.getD j 0 * x j ≤ sign * rhs) :
    ∃ y, (t.addInequality coefficients sign rhs).Feasible y ∧ ∀ j < t.nrColumns, y j = x j := by
  let slack : ℚ := sign * rhs - sign * ∑ j ∈ range t.nrColumns, coefficients.getD j 0 * x j
  have hagree : ∀ j < t.nrColumns, Function.update x t.nrColumns slack j = x j :=
    fun j hj => Function.update_of_ne hj.ne slack x
  have hsum : ∑ j ∈ range t.nrColumns, coefficients.getD j 0 * Function.update x t.nrColumns slack j =
      ∑ j ∈ range t.nrColumns, coefficients.getD j 0 * x j :=
    Finset.sum_congr rfl fun j hj => by rw [hagree j (Finset.mem_range.mp hj)]
  refine ⟨Function.update x t.nrColumns slack, ⟨?_, fun j hj => ?_⟩, hagree⟩
  · rw [h.satisfies_addInequality hlen]
    refine ⟨(satisfies_congr hagree).mpr hx.satisfies, ?_⟩
    rw [hsum, Function.update_self]
    exact add_sub_cancel _ _
  · rw [h.wellFormed.nrColumns_addInequality] at hj
    rcases Nat.lt_succ_iff_lt_or_eq.mp hj with hj | rfl
    · rw [hagree j hj]
      exact hx.nonneg j hj
    · rw [Function.update_self]
      exact sub_nonneg.mpr hle

/-- A row that is zero in the basic columns is appended as it is. -/
theorem WellFormed.reducedRow_eq (h : t.WellFormed) (hlen : coefficients.length ≤ t.nrColumns)
    (hzero : ∀ j ∈ t.basis, coefficients.getD j 0 = 0) :
    t.reducedRow coefficients sign rhs = t.inequalityRow coefficients sign rhs := by
  refine foldl_clearBasic_eq_self fun p hp => ?_
  have hmem : p.1 ∈ t.basis := (List.of_mem_zip hp).1
  rw [getD_inequalityRow hlen (h.basis_lt _ hmem), hzero _ hmem, mul_zero]

end AddInequality

/-- Appending a constraint to a tableau that writes another one in a basis writes the constraint in that basis. -/
theorem Rewrites.addInequality {u : Tableau ℚ} {coefficients : List ℚ} {sign rhs : ℚ} (ht : t.AtBasis)
    (h : t.Rewrites u) (hlen : coefficients.length ≤ t.nrColumns) :
    (t.addInequality coefficients sign rhs).Rewrites (u.addInequality coefficients sign rhs) := by
  have hcolumns := h.equivalent.nrColumns_eq
  have hlen' : coefficients.length ≤ u.nrColumns := hcolumns.symm ▸ hlen
  refine ⟨h.atBasis.addInequality hlen', ?_, ?_, fun x => ?_, fun x hx => ?_⟩
  · rw [h.atBasis.wellFormed.nrRows_addInequality, ht.wellFormed.nrRows_addInequality, h.equivalent.nrRows_eq]
  · rw [h.atBasis.wellFormed.nrColumns_addInequality, ht.wellFormed.nrColumns_addInequality, hcolumns]
  · rw [h.atBasis.satisfies_addInequality hlen', ht.satisfies_addInequality hlen, h.equivalent.satisfies_iff, hcolumns]
  · rw [h.atBasis.objectiveAt_addInequality, ht.objectiveAt_addInequality]
    exact h.equivalent.objectiveAt_eq x ((ht.satisfies_addInequality hlen x).mp hx).1

theorem Rewrites.addConstraint {u : Tableau ℚ} {coefficients : List ℚ} (ht : t.AtBasis) (h : t.Rewrites u)
    (hlen : coefficients.length ≤ t.nrColumns) (relation : Relation) (rhs : ℚ) :
    (t.addConstraint coefficients relation rhs).Rewrites (u.addConstraint coefficients relation rhs) := by
  unfold Tableau.addConstraint
  generalize relation.halves = halves
  induction halves generalizing t u with
  | nil => exact h
  | cons half rest ih =>
    rw [List.foldl_cons, List.foldl_cons]
    refine ih (ht.addInequality hlen) (h.addInequality ht hlen) ?_
    rw [ht.wellFormed.nrColumns_addInequality]
    exact hlen.trans (Nat.le_succ _)

/-- What becomes of a tableau to which the halves of a constraint were appended that is zero in the basic columns. -/
structure Appends (t : Tableau ℚ) (coefficients : List ℚ) (halves : List Relation) (rhs : ℚ) (u : Tableau ℚ) :
    Prop where
  atBasis : u.AtBasis
  nrRows_eq : u.nrRows = t.nrRows + halves.length
  nrColumns_eq : u.nrColumns = t.nrColumns + halves.length
  basis_eq : u.basis = t.basis ++ List.range' t.nrColumns halves.length
  objectiveValue_eq : u.objectiveValue = t.objectiveValue
  relativeCost_eq : ∀ j < t.nrColumns, u.relativeCost j = t.relativeCost j
  entry_eq : ∀ i < t.nrRows, ∀ j < t.nrColumns, u.entry i j = t.entry i j
  rhs_eq : ∀ i < t.nrRows, u.rhs i = t.rhs i
  new_entry : ∀ k half, halves[k]? = some half → ∀ j < t.nrColumns,
    u.entry (t.nrRows + k) j = half.sign * coefficients.getD j 0
  new_rhs : ∀ k half, halves[k]? = some half → u.rhs (t.nrRows + k) = half.sign * rhs

theorem AtBasis.appends_addInequality {coefficients : List ℚ} (h : t.AtBasis)
    (hlen : coefficients.length ≤ t.nrColumns) (hzero : ∀ j ∈ t.basis, coefficients.getD j 0 = 0) (half : Relation)
    (rhs : ℚ) : t.Appends coefficients [half] rhs (t.addInequality coefficients half.sign rhs) := by
  have hwf := h.wellFormed
  have hold : ∀ i < t.nrRows + 1, ∀ j < t.nrColumns,
      (t.addInequality coefficients half.sign rhs).matrix.entry i j = t.matrix.entry i j := by
    intro i hi j hj
    rw [hwf.matrix_entry_addInequality hi, hwf.entry_widened hi, if_pos hj]
  have hlast : ∀ i < t.nrRows + 1, (t.addInequality coefficients half.sign rhs).matrix.entry i
      (t.addInequality coefficients half.sign rhs).nrColumns = t.matrix.entry i t.nrColumns := by
    intro i hi
    rw [hwf.nrColumns_addInequality, hwf.matrix_entry_addInequality hi, hwf.entry_widened_last hi]
  have hnew : ∀ j, (t.addInequality coefficients half.sign rhs).matrix.entry (t.nrRows + 1) j =
      (t.inequalityRow coefficients half.sign rhs).getD j 0 := by
    intro j
    rw [hwf.matrix_entry_addInequality_last, hwf.reducedRow_eq hlen hzero]
  have hsingle : ∀ {k other}, [half][k]? = some other → k = 0 ∧ other = half := by
    intro k other hk
    cases k with
    | zero => exact ⟨rfl, (Option.some.inj hk).symm⟩
    | succ k => simp at hk
  refine ⟨h.addInequality hlen, hwf.nrRows_addInequality, hwf.nrColumns_addInequality, rfl, hlast 0 (by omega),
    fun j hj => hold 0 (by omega) j hj, fun i hi j hj => hold (i + 1) (by omega) j hj,
    fun i hi => hlast (i + 1) (by omega), fun k other hk j hj => ?_, fun k other hk => ?_⟩
  · obtain ⟨rfl, rfl⟩ := hsingle hk
    exact (hnew j).trans (getD_inequalityRow hlen hj)
  · obtain ⟨rfl, rfl⟩ := hsingle hk
    rw [Tableau.rhs, hwf.nrColumns_addInequality, add_zero, hnew, getD_inequalityRow_rhs hlen]

theorem Appends.trans {u v : Tableau ℚ} {coefficients : List ℚ} {halves halves' : List Relation} {rhs : ℚ}
    (h : t.Appends coefficients halves rhs u) (h' : u.Appends coefficients halves' rhs v) :
    t.Appends coefficients (halves ++ halves') rhs v := by
  have hrows := h.nrRows_eq
  have hcolumns := h.nrColumns_eq
  have hsplit : ∀ {k half}, (halves ++ halves')[k]? = some half →
      (halves[k]? = some half ∧ k < halves.length) ∨ ∃ k', k = halves.length + k' ∧ halves'[k']? = some half := by
    intro k half hk
    rw [List.getElem?_append] at hk
    split_ifs at hk with hlt
    · exact Or.inl ⟨hk, hlt⟩
    · exact Or.inr ⟨k - halves.length, by omega, hk⟩
  refine ⟨h'.atBasis, ?_, ?_, ?_, h'.objectiveValue_eq.trans h.objectiveValue_eq, fun j hj => ?_, fun i hi j hj => ?_,
    fun i hi => ?_, fun k half hk j hj => ?_, fun k half hk => ?_⟩
  · rw [h'.nrRows_eq, hrows, List.length_append, add_assoc]
  · rw [h'.nrColumns_eq, hcolumns, List.length_append, add_assoc]
  · rw [h'.basis_eq, h.basis_eq, hcolumns, List.length_append, List.append_assoc, List.range'_append_1]
  · rw [h'.relativeCost_eq j (by omega), h.relativeCost_eq j hj]
  · rw [h'.entry_eq i (by omega) j (by omega), h.entry_eq i hi j hj]
  · rw [h'.rhs_eq i (by omega), h.rhs_eq i hi]
  · obtain ⟨hold, hlt⟩ | ⟨k', rfl, hnew⟩ := hsplit hk
    · rw [h'.entry_eq _ (by omega) j (by omega), h.new_entry k half hold j hj]
    · rw [← add_assoc, ← hrows, h'.new_entry k' half hnew j (by omega)]
  · obtain ⟨hold, hlt⟩ | ⟨k', rfl, hnew⟩ := hsplit hk
    · rw [h'.rhs_eq _ (by omega), h.new_rhs k half hold]
    · rw [← add_assoc, ← hrows, h'.new_rhs k' half hnew]

theorem AtBasis.appends_addConstraint {coefficients : List ℚ} (h : t.AtBasis)
    (hlen : coefficients.length ≤ t.nrColumns) (hzero : ∀ j ∈ t.basis, coefficients.getD j 0 = 0)
    (relation : Relation) (rhs : ℚ) :
    t.Appends coefficients relation.halves rhs (t.addConstraint coefficients relation rhs) := by
  unfold Tableau.addConstraint
  generalize relation.halves = halves
  induction halves generalizing t with
  | nil => exact ⟨h, rfl, rfl, (List.append_nil _).symm, rfl, fun _ _ => rfl, fun _ _ _ _ => rfl, fun _ _ => rfl,
      fun k half hk => by simp at hk, fun k half hk => by simp at hk⟩
  | cons half rest ih =>
    have hfirst := h.appends_addInequality hlen hzero half rhs
    refine hfirst.trans (ih hfirst.atBasis ?_ fun j hj => ?_)
    · rw [hfirst.nrColumns_eq]
      omega
    · -- the slack that was just appended is beyond the coefficients
      rw [hfirst.basis_eq] at hj
      rcases List.mem_append.mp hj with hj | hj
      · exact hzero j hj
      · rw [List.getD_eq_default _ _ (hlen.trans (List.mem_range'_1.mp hj).1)]

end Tableau

end LinearProgramming
