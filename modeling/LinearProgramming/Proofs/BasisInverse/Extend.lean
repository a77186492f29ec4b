import LinearProgramming.Proofs.BasisInverse.Inverts
import LinearProgramming.Proofs.Tableau.Edit

/-! # The tableau of a basis for more columns

The inverse of a basis depends only on the basic columns, so it serves also when the first tableau gets more columns
(`Inverts.of_entry_eq`). The tableau of the basis then gets more columns as well, and keeps those that it had. -/

namespace LinearProgramming.BasisInverse.Inverts

variable {b : BasisInverse ℚ} {first next t : Tableau ℚ} {column cost newCost : List ℚ} {i j : ℕ}

theorem of_columns_eq (h : b.Inverts first) (hrows : next.nrRows = first.nrRows)
    (hcolumns : first.nrColumns ≤ next.nrColumns)
    (hentry : ∀ i < first.nrRows, ∀ j ∈ b.columns, next.entry i j = first.entry i j) : b.Inverts next := by
  refine ⟨h.length_eq.trans hrows.symm, fun j hj => (h.lt j hj).trans_le hcolumns, hrows.symm ▸ h.regular,
    fun i hi l hl => ?_⟩
  rw [hrows] at hi hl
  rw [← h.left_inv i hi l hl]
  exact h.rowDot_congr (fun k hk => hentry k hk _ (Tableau.getD_mem (by rw [h.length_eq]; exact hl))) i

theorem of_entry_eq (h : b.Inverts first) (hrows : next.nrRows = first.nrRows)
    (hcolumns : first.nrColumns ≤ next.nrColumns)
    (hentry : ∀ i < first.nrRows, ∀ j < first.nrColumns, next.entry i j = first.entry i j) : b.Inverts next :=
  h.of_columns_eq hrows hcolumns fun i hi j hj => hentry i hi j (h.lt j hj)

theorem length_transform (h : b.Inverts first) (values : List ℚ) : (b.transform values).length = first.nrRows := by
  rw [transform, RowMatrix.mulVec, List.length_map]
  exact h.regular.nrRows_eq

theorem getD_transform (h : b.Inverts first) (values : List ℚ) (hi : i < first.nrRows) :
    (b.transform values).getD i 0 = b.inverse.rowDot i (values.getD · 0) := by
  have hi' : i < b.inverse.rows.length := by
    rw [show b.inverse.rows.length = first.nrRows from h.regular.nrRows_eq]
    exact hi
  have hrow : b.inverse.rows[i] = b.inverse.row i := by rw [RowMatrix.row, List.getD_eq_getElem _ _ hi']
  have hlen : (b.inverse.row i).length = b.inverse.nrColumns :=
    RowMatrix.length_row h.regular.rectangular (by rw [h.regular.nrRows_eq]; exact hi)
  rw [transform, RowMatrix.mulVec, List.getD_eq_getElem _ _ (by rw [List.length_map]; exact hi'), List.getElem_map, hrow,
    Scalar.dot_eq_sum_range _ _ b.inverse.nrColumns (by rw [hlen]; exact min_le_left _ _)]
  rfl

theorem relativeCost_tableau_eq (h : b.Inverts first) (hwf : first.WellFormed) (hj : j < first.nrColumns) :
    (b.tableau first cost).relativeCost j =
      relativeCost (b.shadowPrices cost) (first.column j) (cost.getD j 0) := by
  rw [Tableau.relativeCost, h.matrix_entry_tableau hwf, List.getD_cons_zero, getD_costLine_eq hj]

/-- If the first tableau gets one more column, then so does the tableau of the basis. -/
theorem widens_tableau (h : b.Inverts first) (hwf : first.WellFormed) (hnext : b.Inverts next)
    (hwf' : next.WellFormed) (hwidens : first.Widens next)
    (hcost : ∀ j < first.nrColumns, newCost.getD j 0 = cost.getD j 0) :
    (b.tableau first cost).Widens (b.tableau next newCost) := by
  have hrows := hwidens.nrRows_eq
  have hcolumns := hwidens.nrColumns_eq
  have hentry : ∀ i < first.nrRows, ∀ j < first.nrColumns,
      (b.tableau next newCost).entry i j = (b.tableau first cost).entry i j := by
    intro i hi j hj
    rw [h.entry_tableau hwf hi hj, hnext.entry_tableau hwf' (by omega) (by omega)]
    exact h.rowDot_congr (fun k hk => hwidens.entry_eq k hk j hj) i
  have hrhs : ∀ i < first.nrRows, (b.tableau next newCost).rhs i = (b.tableau first cost).rhs i := by
    intro i hi
    rw [h.rhs_tableau hwf hi, hnext.rhs_tableau hwf' (by omega)]
    exact h.rowDot_congr hwidens.rhs_eq i
  have hTrows : (b.tableau first cost).nrRows = first.nrRows := h.nrRows_tableau hwf
  have hTcolumns : (b.tableau first cost).nrColumns = first.nrColumns := h.nrColumns_tableau hwf
  refine ⟨?_, ?_, fun i hi j hj => hentry i (by omega) j (by omega), fun i hi => hrhs i (by omega), fun j hj => ?_, ?_⟩
  · rw [hnext.nrRows_tableau hwf', hTrows, hrows]
  · rw [hnext.nrColumns_tableau hwf', hTcolumns, hcolumns]
  · rw [hTcolumns] at hj
    rw [h.relativeCost_tableau hwf hj, hnext.relativeCost_tableau hwf' (by omega), hrows, hcost j hj]
    refine congrArg (· - cost.getD j 0) (Finset.sum_congr rfl fun l hl => ?_)
    have hl' := Finset.mem_range.mp hl
    rw [hcost _ (h.getD_lt hl'), hentry l hl' j hj]
  · rw [h.objectiveValue_tableau hwf, hnext.objectiveValue_tableau hwf', hrows]
    refine Finset.sum_congr rfl fun l hl => ?_
    have hl' := Finset.mem_range.mp hl
    rw [hcost _ (h.getD_lt hl'), hrhs l hl']

/-- A tableau in a basis follows the first tableau when a column is added, if it gets that column in the basis. -/
theorem rewrites_addColumn (h : b.Inverts first) (hwf : first.WellFormed)
    (hrew : first.Rewrites t) (hunit : t.UnitAt b.columns) (hzero : first.objectiveValue = 0)
    (hcost : ∀ j < first.nrColumns, cost.getD j 0 = -first.relativeCost j) (hlen : column.length = first.nrRows + 1)
    (hnewCost : ∀ j < (first.addColumn column).nrColumns,
      newCost.getD j 0 = -(first.addColumn column).relativeCost j) :
    (first.addColumn column).Rewrites (t.addColumn
      (relativeCost (b.shadowPrices newCost) ((first.addColumn column).column first.nrColumns)
        (newCost.getD first.nrColumns 0) :: b.transform ((first.addColumn column).column first.nrColumns))) := by
  have hwf' := hwf.addColumn hlen
  have hwidens := hwf.widens_addColumn hlen
  have hrows := hwidens.nrRows_eq
  have hcolumns := hwidens.nrColumns_eq
  have hnext : b.Inverts (first.addColumn column) := h.of_entry_eq hrows (by omega) hwidens.entry_eq
  have hsame : ∀ j < first.nrColumns, newCost.getD j 0 = cost.getD j 0 := by
    intro j hj
    rw [hnewCost j (by omega), hcost j hj, hwidens.relativeCost_eq j hj]
  -- the tableaus of the basis before and after, the first of which is the given one
  have hold := h.rewrites_tableau hwf hcost hzero
  have hnew := hnext.rewrites_tableau hwf' hnewCost (hwidens.objectiveValue_eq.trans hzero)
  have htrows := hrew.equivalent.nrRows_eq
  have htcolumns := hrew.equivalent.nrColumns_eq
  have htwf := hrew.atBasis.wellFormed
  have hvalues : (relativeCost (b.shadowPrices newCost) ((first.addColumn column).column first.nrColumns)
      (newCost.getD first.nrColumns 0) ::
        b.transform ((first.addColumn column).column first.nrColumns)).length = t.nrRows + 1 := by
    rw [List.length_cons, h.length_transform, htrows]
  have hequiv := (htwf.widens_addColumn hvalues).equivalent (h.widens_tableau hwf hnext hwf' hwidens hsame) hunit
    (h.unitAt_tableau hwf) (hrew.equivalent.symm.trans hold.equivalent) (fun i hi => ?_) ?_
  · exact ⟨hrew.atBasis.addColumn hvalues, hnew.equivalent.trans hequiv.symm⟩
  · rw [Tableau.entry, Tableau.entry, htwf.matrix_entry_addColumn_self hvalues (by omega), List.getD_cons_succ,
      h.getD_transform _ (by omega), htcolumns]
    refine (hnext.entry_tableau hwf' (by omega) (by omega)).trans ?_
    exact h.rowDot_congr (fun k hk => (Tableau.getD_column _ (by omega) _).symm) i
  · rw [Tableau.relativeCost, Tableau.relativeCost, htwf.matrix_entry_addColumn_self hvalues (by omega),
      List.getD_cons_zero, htcolumns]
    exact hnext.relativeCost_tableau_eq hwf' (by omega)

end LinearProgramming.BasisInverse.Inverts
