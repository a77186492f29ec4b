import LinearProgramming.Proofs.Tableau.Pivot
import LinearProgramming.Proofs.Tableau.RatioTest
import LinearProgramming.Simplex.Dual
import LinearProgramming.Simplex.Primal

/-! # Moves of the simplex methods

One step of the dual and of the primal method in exact arithmetic, with tolerance zero. A method stops with a
certificate that can be read off the tableau: no negative right hand side, a row that no nonnegative vector satisfies,
no negative relative cost, or a column along which the objective grows without bound. Otherwise it pivots, and
`DualPivot` and `PrimalPivot` collect what is known of the chosen row and column. -/

namespace LinearProgramming

namespace Tableau

variable {t : Tableau ℚ} {i j row column : ℕ}

theorem WellFormed.mem_nonBasicColumns {α : Type} {t : Tableau α} (h : t.WellFormed) :
    j ∈ t.nonBasicColumns ↔ j < t.nrColumns ∧ j ∉ t.basis := by
  rw [nonBasicColumns, List.mem_filter, List.mem_range, ← h.mask_iff, Bool.not_eq_true', Bool.not_eq_true]

/-! ### Dual ratio test -/

theorem rhs_nonneg_of_dualRow?_eq_none (h : t.dualRow? 0 = none) : ∀ i < t.nrRows, 0 ≤ t.rhs i := by
  have hchoice := t.choosesWithin_dualRow? le_rfl
  rw [h] at hchoice
  intro i hi
  by_contra hneg
  refine hchoice i ⟨hi, ?_⟩
  rw [neg_zero]
  exact not_le.mp hneg

theorem of_dualRow?_eq_some (h : t.dualRow? 0 = some row) :
    row < t.nrRows ∧ t.rhs row < 0 ∧ ∀ i < t.nrRows, t.rhs row ≤ t.rhs i := by
  have hchoice := t.choosesWithin_dualRow? le_rfl
  rw [h] at hchoice
  simp only [ChoosesWithin, neg_zero, add_zero] at hchoice
  obtain ⟨⟨hlt, hneg⟩, hle⟩ := hchoice
  refine ⟨hlt, hneg, fun i hi => ?_⟩
  by_cases hi0 : t.rhs i < 0
  · exact hle i ⟨hi, hi0⟩
  · exact hneg.le.trans (not_lt.mp hi0)

/-- The columns of the basis need not be looked at: in a row they are zero or one. -/
theorem entry_nonneg_of_dualColumn?_eq_none (h : t.AtBasis) (hrow : row < t.nrRows)
    (hnone : t.dualColumn? row 0 = none) : ∀ j < t.nrColumns, 0 ≤ t.entry row j := by
  intro j hj
  by_cases hmem : j ∈ t.basis
  · rw [h.unitAt.entry_of_mem hmem hrow]
    split_ifs <;> norm_num
  · have hchoice := t.choosesWithin_dualColumn? le_rfl row
    rw [hnone] at hchoice
    by_contra hneg
    refine hchoice j ⟨h.wellFormed.mem_nonBasicColumns.mpr ⟨hj, hmem⟩, ?_⟩
    rw [neg_zero]
    exact not_le.mp hneg

structure DualPivot (t : Tableau ℚ) (row column : ℕ) : Prop where
  row_lt : row < t.nrRows
  column_lt : column < t.nrColumns
  column_notMem : column ∉ t.basis
  rhs_neg : t.rhs row < 0
  rhs_le : ∀ i < t.nrRows, t.rhs row ≤ t.rhs i
  entry_neg : t.entry row column < 0
  ratio_le : ∀ j < t.nrColumns, j ∉ t.basis → t.entry row j < 0 →
    |t.relativeCost column / t.entry row column| ≤ |t.relativeCost j / t.entry row j|

/-- All that a dual move can be. -/
theorem dualMove_cases (h : t.AtBasis) :
    (t.dualMove 0 = .stop (.optimal t.basicSolution) ∧ ∀ i < t.nrRows, 0 ≤ t.rhs i) ∨
    (t.dualMove 0 = .stop .infeasible ∧
      ∃ i < t.nrRows, t.rhs i < 0 ∧ ∀ j < t.nrColumns, 0 ≤ t.entry i j) ∨
    ∃ row column, t.dualMove 0 = .pivot row column ∧ t.DualPivot row column := by
  unfold dualMove
  cases hrow : t.dualRow? 0 with
  | none => exact Or.inl ⟨rfl, rhs_nonneg_of_dualRow?_eq_none hrow⟩
  | some row =>
    obtain ⟨hlt, hneg, hle⟩ := of_dualRow?_eq_some hrow
    simp only
    cases hcol : t.dualColumn? row 0 with
    | none =>
      exact Or.inr (Or.inl ⟨rfl, row, hlt, hneg, entry_nonneg_of_dualColumn?_eq_none h hlt hcol⟩)
    | some column =>
      refine Or.inr (Or.inr ⟨row, column, rfl, ?_⟩)
      have hchoice := t.choosesWithin_dualColumn? le_rfl row
      rw [hcol] at hchoice
      simp only [ChoosesWithin, MayEnter, h.wellFormed.mem_nonBasicColumns, neg_zero, add_zero] at hchoice
      obtain ⟨⟨⟨hclt, hcmem⟩, hcneg⟩, hratio⟩ := hchoice
      exact ⟨hlt, hclt, hcmem, hneg, hle, hcneg, fun j hj hjmem hjneg => hratio j ⟨⟨hj, hjmem⟩, hjneg⟩⟩

/-! ### Entering columns -/

theorem mem_nonBasicCosts (h : t.WellFormed) {p : ℕ × ℚ} :
    p ∈ t.nonBasicCosts ↔ p.1 < t.nrColumns ∧ p.1 ∉ t.basis ∧ p.2 = t.relativeCost p.1 := by
  rw [nonBasicCosts, List.mem_map]
  constructor
  · rintro ⟨j, hj, rfl⟩
    obtain ⟨hlt, hmem⟩ := h.mem_nonBasicColumns.mp hj
    exact ⟨hlt, hmem, rfl⟩
  · rintro ⟨hlt, hmem, hcost⟩
    exact ⟨p.1, h.mem_nonBasicColumns.mpr ⟨hlt, hmem⟩, Prod.ext rfl hcost.symm⟩

theorem relativeCost_nonneg_of_select?_eq_none (h : t.AtBasis) {rule : EnteringRule}
    (hnone : rule.select? t.nonBasicCosts 0 = none) : ∀ j < t.nrColumns, 0 ≤ t.relativeCost j := by
  intro j hj
  by_cases hmem : j ∈ t.basis
  · rw [h.unitAt.relativeCost_eq_zero hmem]
  · have hcand : (j, t.relativeCost j) ∈ t.nonBasicCosts :=
      (mem_nonBasicCosts h.wellFormed).mpr ⟨hj, hmem, rfl⟩
    have hall : ∀ p ∈ t.nonBasicCosts, ¬p.2 < 0 := by
      cases rule with
      | firstProfitable =>
        simpa only [EnteringRule.select?, List.find?_eq_none, Scalar.isNegative_iff, neg_zero] using hnone
      | steepest =>
        simpa only [EnteringRule.select?, Scalar.firstMinimum_eq_none_iff, List.filter_eq_nil_iff,
          Scalar.isNegative_iff, neg_zero] using hnone
    have hcost : ¬t.relativeCost j < 0 := hall (j, t.relativeCost j) hcand
    exact not_lt.mp hcost

theorem of_select?_eq_some (h : t.WellFormed) {rule : EnteringRule} {p : ℕ × ℚ}
    (hsome : rule.select? t.nonBasicCosts 0 = some p) :
    p.1 < t.nrColumns ∧ p.1 ∉ t.basis ∧ t.relativeCost p.1 < 0 := by
  have hfound : p ∈ t.nonBasicCosts ∧ p.2 < 0 := by
    cases rule with
    | firstProfitable =>
      have hneg := List.find?_some (p := fun q : ℕ × ℚ => Scalar.isNegative q.2 0) hsome
      rw [Scalar.isNegative_iff, neg_zero] at hneg
      exact ⟨List.mem_of_find?_eq_some hsome, hneg⟩
    | steepest =>
      have hmem := Scalar.firstMinimum_mem hsome
      rw [List.mem_filter, Scalar.isNegative_iff, neg_zero] at hmem
      exact hmem
  obtain ⟨hlt, hmem, hcost⟩ := (mem_nonBasicCosts h).mp hfound.1
  exact ⟨hlt, hmem, hcost ▸ hfound.2⟩

/-- The columns are tried in increasing order, so none before the first profitable one is profitable. -/
theorem relativeCost_nonneg_of_lt_firstProfitable (h : t.WellFormed) {p : ℕ × ℚ}
    (hsome : EnteringRule.firstProfitable.select? t.nonBasicCosts 0 = some p) (hj : j < p.1)
    (hmem : j ∉ t.basis) : 0 ≤ t.relativeCost j := by
  obtain ⟨-, before, after, hsplit, hbefore⟩ := List.find?_eq_some_iff_append.mp hsome
  have hlt : p.1 < t.nrColumns := (of_select?_eq_some h hsome).1
  have hcand : (j, t.relativeCost j) ∈ t.nonBasicCosts :=
    (mem_nonBasicCosts h).mpr ⟨hj.trans hlt, hmem, rfl⟩
  have hsorted : (before ++ p :: after).Pairwise fun a b => a.1 < b.1 := by
    rw [← hsplit, nonBasicCosts, List.pairwise_map]
    exact List.pairwise_lt_range.filter _
  rw [hsplit, List.mem_append, List.mem_cons] at hcand
  rcases hcand with hcand | hcand | hcand
  · have hneg := hbefore _ hcand
    rw [Bool.not_eq_true', Bool.eq_false_iff, ne_eq, Scalar.isNegative_iff, neg_zero] at hneg
    exact not_lt.mp hneg
  · rw [← hcand] at hj
    exact absurd hj (lt_irrefl _)
  · have hlast := (List.pairwise_cons.mp (List.pairwise_append.mp hsorted).2.1).1 _ hcand
    exact absurd hj (not_lt.mpr hlast.le)

/-! ### Primal ratio tests -/

structure PrimalPivot (t : Tableau ℚ) (row column : ℕ) : Prop where
  row_lt : row < t.nrRows
  column_lt : column < t.nrColumns
  column_notMem : column ∉ t.basis
  cost_neg : t.relativeCost column < 0
  entry_pos : 0 < t.entry row column
  ratio_le : ∀ i < t.nrRows, 0 < t.entry i column →
    max (t.rhs row) 0 / t.entry row column ≤ max (t.rhs i) 0 / t.entry i column

/-- What the smallest index rule adds: no column before the entering one is profitable, and of the tied rows the
one with the least basic column leaves. -/
structure SmallestIndexPivot (t : Tableau ℚ) (row column : ℕ) : Prop extends t.PrimalPivot row column where
  cost_nonneg : ∀ j < column, j ∉ t.basis → 0 ≤ t.relativeCost j
  basis_le : ∀ i < t.nrRows, 0 < t.entry i column →
    max (t.rhs i) 0 / t.entry i column ≤ max (t.rhs row) 0 / t.entry row column →
    t.basis.getD row 0 ≤ t.basis.getD i 0

theorem of_primalRow?_eq_some (h : t.primalRow? column 0 = some row) :
    row < t.nrRows ∧ 0 < t.entry row column ∧ ∀ i < t.nrRows, 0 < t.entry i column →
      max (t.rhs row) 0 / t.entry row column ≤ max (t.rhs i) 0 / t.entry i column := by
  have hchoice := t.choosesWithin_primalRow? le_rfl column
  rw [h] at hchoice
  simp only [ChoosesWithin, add_zero] at hchoice
  obtain ⟨⟨hlt, hpos⟩, hratio⟩ := hchoice
  exact ⟨hlt, hpos, fun i hi hipos => hratio i ⟨hi, hipos⟩⟩

theorem of_primalRowByLowestBasic?_eq_some (h : t.primalRowByLowestBasic? column 0 = some row) :
    row < t.nrRows ∧ 0 < t.entry row column ∧
      (∀ i < t.nrRows, 0 < t.entry i column →
        max (t.rhs row) 0 / t.entry row column ≤ max (t.rhs i) 0 / t.entry i column) ∧
      ∀ i < t.nrRows, 0 < t.entry i column →
        max (t.rhs i) 0 / t.entry i column ≤ max (t.rhs row) 0 / t.entry row column →
        t.basis.getD row 0 ≤ t.basis.getD i 0 := by
  have hchoice := t.choosesWithin_primalRowByLowestBasic? le_rfl column
  rw [h] at hchoice
  simp only [ChoosesWithin, mul_zero, add_zero] at hchoice
  obtain ⟨⟨hlt, hpos⟩, hratio⟩ := hchoice
  exact ⟨hlt, hpos, fun i hi hipos => hratio i ⟨hi, hipos⟩,
    fun i hi hipos hle => basis_le_of_primalRowByLowestBasic? h ⟨hi, hipos⟩ hle⟩

/-- Both ratio tests fail only when no entry of the column is positive. -/
theorem entry_nonpos_of_primalRow_eq_none {smallestIndex : Bool}
    (h : (if smallestIndex then t.primalRowByLowestBasic? column 0 else t.primalRow? column 0) = none) :
    ∀ i < t.nrRows, t.entry i column ≤ 0 := by
  have hnone : ∀ i, ¬t.MayLeave 0 column i := by
    cases smallestIndex with
    | false =>
      have hchoice := t.choosesWithin_primalRow? le_rfl column
      rw [if_neg Bool.false_ne_true] at h
      rwa [h] at hchoice
    | true =>
      have hchoice := t.choosesWithin_primalRowByLowestBasic? le_rfl column
      rw [if_pos rfl] at h
      rwa [h] at hchoice
  intro i hi
  by_contra hpos
  exact hnone i ⟨hi, not_le.mp hpos⟩

/-- All that a primal move can be. -/
theorem primalMove_cases (h : t.AtBasis) (rule : EnteringRule) (smallestIndex : Bool) :
    (t.primalMove rule smallestIndex 0 = .stop (.optimal t.basicSolution) ∧
      ∀ j < t.nrColumns, 0 ≤ t.relativeCost j) ∨
    (t.primalMove rule smallestIndex 0 = .stop .unbounded ∧
      ∃ j < t.nrColumns, j ∉ t.basis ∧ t.relativeCost j < 0 ∧ ∀ i < t.nrRows, t.entry i j ≤ 0) ∨
    ∃ row column, t.primalMove rule smallestIndex 0 = .pivot row column ∧ t.PrimalPivot row column ∧
      (smallestIndex = true → t.SmallestIndexPivot row column) := by
  unfold primalMove
  cases hsel : (if smallestIndex then EnteringRule.firstProfitable else rule).select? t.nonBasicCosts 0 with
  | none => exact Or.inl ⟨rfl, relativeCost_nonneg_of_select?_eq_none h hsel⟩
  | some p =>
    obtain ⟨hlt, hmem, hneg⟩ := of_select?_eq_some h.wellFormed hsel
    simp only
    cases hrow : (if smallestIndex then t.primalRowByLowestBasic? p.1 0 else t.primalRow? p.1 0) with
    | none => exact Or.inr (Or.inl ⟨rfl, p.1, hlt, hmem, hneg, entry_nonpos_of_primalRow_eq_none hrow⟩)
    | some row =>
      refine Or.inr (Or.inr ⟨row, p.1, rfl, ?_⟩)
      cases smallestIndex with
      | false =>
        rw [if_neg Bool.false_ne_true] at hrow
        obtain ⟨hrlt, hpos, hle⟩ := of_primalRow?_eq_some hrow
        exact ⟨⟨hrlt, hlt, hmem, hneg, hpos, hle⟩, fun hfalse => absurd hfalse Bool.false_ne_true⟩
      | true =>
        rw [if_pos rfl] at hrow hsel
        obtain ⟨hrlt, hpos, hle, hbasis⟩ := of_primalRowByLowestBasic?_eq_some hrow
        have hpivot : t.PrimalPivot row p.1 := ⟨hrlt, hlt, hmem, hneg, hpos, hle⟩
        refine ⟨hpivot, fun _ => ⟨hpivot, fun j hj hjmem => ?_, hbasis⟩⟩
        exact relativeCost_nonneg_of_lt_firstProfitable h.wellFormed hsel hj hjmem

end Tableau

end LinearProgramming
