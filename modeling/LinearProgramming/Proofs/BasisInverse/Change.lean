import LinearProgramming.Proofs.BasisInverse.Extend
import LinearProgramming.Proofs.RowMatrix.Determinant

/-! # Exchanging a basic column

`BasisInverse.change` updates an inverse by one elimination, with the entering column as the current basis expresses
it. The elimination makes that column the unit vector of its row and leaves the other basic columns alone, so the result
inverts the new basis (`Inverts.change`). The slack basis of a tableau is inverted by the identity, where a sequence of
exchanges starts (`inverts_identity`, `Exchanged`). By whichever exchanges it was reached, a basis has one inverse
(`Inverts.eq_of_columns_eq`), so the updated inverse is the one that elimination finds afresh
(`isInverse_of_exchanged`). -/

namespace LinearProgramming

/-- The given columns are the unit vectors of the constraint rows, in their order, whatever they cost. -/
structure Tableau.UnitColumns (t : Tableau ℚ) (columns : List ℕ) : Prop where
  length_eq : columns.length = t.nrRows
  lt : ∀ j ∈ columns, j < t.nrColumns
  entry : ∀ i < t.nrRows, ∀ k < t.nrRows, t.entry k (columns.getD i 0) = if k = i then 1 else 0

theorem Tableau.UnitAt.unitColumns {t : Tableau ℚ} {columns : List ℕ} (h : t.UnitAt columns) : t.UnitColumns columns :=
  ⟨h.length_eq, h.lt, h.entry⟩

namespace BasisInverse

variable {b b' : BasisInverse ℚ} {first t : Tableau ℚ} {cost : List ℚ} {i j row column : ℕ} {ε : ℚ}

theorem inverts_identity (h : first.UnitColumns first.basis) :
    (identity first.basis : BasisInverse ℚ).Inverts first := by
  have hlen : first.basis.length = first.nrRows := h.length_eq
  have hregular : (identity first.basis : BasisInverse ℚ).inverse.Regular first.nrRows := by
    rw [← hlen]
    exact RowMatrix.regular_identity _
  refine ⟨hlen, h.lt, hregular, ?_⟩
  intro i hi l hl
  have hdot := RowMatrix.rowDot_identity (n := first.basis.length) (hlen.symm ▸ hi)
    (first.entry · (first.basis.getD l 0))
  exact hdot.trans (h.entry l hl i hi)

namespace Inverts

theorem getD_transform_column (h : b.Inverts first) (hi : i < first.nrRows) (j : ℕ) :
    (b.transform (first.column j)).getD i 0 = b.inverse.rowDot i (first.entry · j) := by
  rw [h.getD_transform _ hi]
  exact h.rowDot_congr (fun k hk => first.getD_column hk j) i

theorem change (h : b.Inverts first) (hrow : row < first.nrRows) (hcolumn : column < first.nrColumns)
    (hpivot : b.inverse.rowDot row (first.entry · column) ≠ 0) :
    (b.change row column (b.transform (first.column column))).Inverts first := by
  have hvalue := fun i (hi : i < first.nrRows) => h.getD_transform_column hi column
  have hpivot' : (b.transform (first.column column)).getD row 0 ≠ 0 := by
    rw [hvalue row hrow]
    exact hpivot
  have hlen : row < b.columns.length := h.length_eq.symm ▸ hrow
  refine ⟨?_, ?_, h.regular.eliminate hrow hpivot', ?_⟩
  · exact List.length_set.trans h.length_eq
  · intro j hj
    rcases List.mem_or_eq_of_mem_set hj with hj | hj
    · exact h.lt j hj
    · exact hj ▸ hcolumn
  · intro i hi l hl
    show (b.inverse.eliminate row (b.transform (first.column column))).rowDot i
      (first.entry · ((b.columns.set row column).getD l 0)) = _
    rw [RowMatrix.getD_set _ hlen, RowMatrix.rowDot_eliminate h.regular.rectangular (h.regular.nrRows_eq.symm ▸ hrow) _
      (h.regular.nrRows_eq.symm ▸ hi), hvalue i hi, hvalue row hrow]
    by_cases hlr : l = row
    · -- the entering column becomes the unit vector of its row
      subst hlr
      simp only [if_true, div_self hpivot, mul_one, sub_self]
    · -- the other basic columns have a zero in that row already
      have hzero := h.left_inv row hrow l hl
      rw [if_neg (Ne.symm hlr)] at hzero
      simp only [if_neg hlr, hzero, zero_div, mul_zero, sub_zero]
      by_cases hir : i = row
      · rw [if_pos hir, if_neg (hir ▸ Ne.symm hlr)]
      · rw [if_neg hir]
        exact h.left_inv i hi l hl

/-! ### One inverse for each basis -/

theorem hasShape_basisMatrix (h : b.Inverts first) :
    (first.basisMatrix b.columns).HasShape first.nrRows first.nrRows := by
  have hshape := RowMatrix.hasShape_submatrix first.matrix ((List.range first.nrRows).map (· + 1)) b.columns
  rwa [List.length_map, List.length_range, h.length_eq] at hshape

theorem isInverse (h : b.Inverts first) : b.inverse.IsInverse (first.basisMatrix b.columns) first.nrRows := by
  refine RowMatrix.isInverse_of_toMatrix_mul h.regular.hasShape h.hasShape_basisMatrix ?_
  ext i l
  have hleft := h.left_inv i i.isLt l l.isLt
  rw [RowMatrix.rowDot_eq_sum h.regular.nrColumns_eq] at hleft
  rw [Matrix.mul_apply, Matrix.one_apply]
  simp only [Fin.ext_iff, RowMatrix.toMatrix_apply, Tableau.entry_basisMatrix h.length_eq, Fin.is_lt]
  exact hleft

theorem eq_of_columns_eq (h : b.Inverts first) (h' : b'.Inverts first) (hcolumns : b.columns = b'.columns) : b = b' := by
  have hinverse' := h'.isInverse
  rw [← hcolumns] at hinverse'
  have heq := h.isInverse.unique hinverse' h.regular.hasShape h'.regular.hasShape h.hasShape_basisMatrix
  cases b
  cases b'
  exact congrArg₂ BasisInverse.mk hcolumns heq

theorem regular_basisMatrix (h : b.Inverts first) : (first.basisMatrix b.columns).Regular first.nrRows :=
  RowMatrix.regular_of_det_ne_zero h.hasShape_basisMatrix
    (h.isInverse.det_ne_zero h.regular.hasShape h.hasShape_basisMatrix)

theorem ofColumns_zero (h : b.Inverts first) : ofColumns first b.columns 0 = .ok b := by
  obtain ⟨found, hok, hcolumns, hfound⟩ := ofColumns_of_regular h.length_eq h.lt h.regular_basisMatrix
  rw [hok, hfound.eq_of_columns_eq h hcolumns]

theorem ofColumns_of_nonpos (h : b.Inverts first) (hε : ε ≤ 0) : ofColumns first b.columns ε = .ok b := by
  rw [ofColumns, h.regular_basisMatrix.invert_eq_of_nonpos hε]
  exact h.ofColumns_zero

theorem eq_of_ofColumns_eq_ok (h : b.Inverts first) (hok : ofColumns first b.columns ε = .ok b') : b' = b := by
  rcases le_total 0 ε with hε | hε
  · exact Except.ok.inj ((ofColumns_zero_of_ok hε hok).symm.trans h.ofColumns_zero)
  · exact Except.ok.inj (hok.symm.trans (h.ofColumns_of_nonpos hε))

theorem exists_ofColumns_eq (h : b.Inverts first) : ∃ ε₀ > 0, ∀ ε ≤ ε₀, ofColumns first b.columns ε = .ok b := by
  obtain ⟨ε₀, hε₀, hsame⟩ := h.regular_basisMatrix.exists_invert_eq
  refine ⟨ε₀, hε₀, fun ε hle => ?_⟩
  rcases le_total 0 ε with hε | hε
  · rw [ofColumns, hsame ε hε hle]
    exact h.ofColumns_zero
  · exact h.ofColumns_of_nonpos hε

end Inverts

/-! ### Sequences of exchanges -/

def exchange (b : BasisInverse ℚ) (first : Tableau ℚ) (row column : ℕ) : BasisInverse ℚ :=
  b.change row column (b.transform (first.column column))

/-- The slack basis of a tableau after any exchanges, each on a value of the entering column that is not zero. -/
inductive Exchanged (first : Tableau ℚ) : BasisInverse ℚ → Prop
  | start : Exchanged first (identity first.basis)
  | exchange {b : BasisInverse ℚ} {row column : ℕ} (h : Exchanged first b) (hcolumn : column < first.nrColumns)
      (hpivot : (b.transform (first.column column)).getD row 0 ≠ 0) : Exchanged first (b.exchange first row column)

theorem inverts_of_exchanged (hunit : first.UnitColumns first.basis) (h : Exchanged first b) : b.Inverts first := by
  induction h with
  | start => exact inverts_identity hunit
  | @exchange b row column h hcolumn hpivot ih =>
    -- a value that is not zero lies inside the transformed column
    have hrow : row < first.nrRows := by
      by_contra hge
      have hlen : (b.transform (first.column column)).length = first.nrRows :=
        (List.length_map _).trans ih.regular.nrRows_eq
      exact hpivot (List.getD_eq_default _ _ (by omega))
    rw [ih.getD_transform_column hrow] at hpivot
    exact ih.change hrow hcolumn hpivot

/-- After any exchanges from a basis of unit columns, the updated inverse is the inverse of the basis matrix from both
sides. A new inversion finds no other one, whatever its tolerance, and finds it if the tolerance is small enough. -/
theorem isInverse_of_exchanged (hunit : first.UnitColumns first.basis) (h : Exchanged first b) :
    b.inverse.IsInverse (first.basisMatrix b.columns) first.nrRows ∧
    (∀ ε found, ofColumns first b.columns ε = .ok found → found.inverse = b.inverse) ∧
    ∃ ε₀ > 0, ∀ ε ≤ ε₀, ofColumns first b.columns ε = .ok b := by
  have hinverts := inverts_of_exchanged hunit h
  refine ⟨hinverts.isInverse, fun ε found hok => ?_, hinverts.exists_ofColumns_eq⟩
  rw [hinverts.eq_of_ofColumns_eq_ok hok]

/-- The slack columns come last, and one of them has a cost. -/
def slackTableau : Tableau ℚ :=
  .ofMatrix (.ofRows [[-3, -2, -1, 0, 0, 4, 0], [0, 2, 1, 1, 0, 0, 4], [1, 0, 0, 0, 1, 0, 6], [3, 0, 1, 0, 0, 1, 5]])
    [3, 4, 5]

/-- All slack columns are exchanged, the last one first. -/
def exchangedBasis : BasisInverse ℚ :=
  (((identity slackTableau.basis).exchange slackTableau 2 0).exchange slackTableau 0 1).exchange slackTableau 1 2

-- The inversion has to exchange rows, the updates have not.
theorem isInverse_of_exchanged_slackTableau :
    slackTableau.UnitColumns slackTableau.basis ∧ Exchanged slackTableau exchangedBasis ∧
    exchangedBasis.columns = [1, 2, 0] ∧
    exchangedBasis.inverse.IsInverse (slackTableau.basisMatrix [1, 2, 0]) 3 ∧
    ∃ found, ofColumns slackTableau [1, 2, 0] (1 / 100) = .ok found ∧ found.inverse = exchangedBasis.inverse := by
  have hunit : slackTableau.UnitColumns slackTableau.basis := ⟨rfl, by decide, by decide +kernel⟩
  have hfirst : Exchanged slackTableau ((identity slackTableau.basis).exchange slackTableau 2 0) :=
    .exchange .start (by decide) (by decide +kernel)
  have hsecond := hfirst.exchange (show 1 < slackTableau.nrColumns by decide)
    (show (_ : List ℚ).getD 0 0 ≠ 0 by decide +kernel)
  have hthird : Exchanged slackTableau exchangedBasis :=
    hsecond.exchange (show 2 < slackTableau.nrColumns by decide) (show (_ : List ℚ).getD 1 0 ≠ 0 by decide +kernel)
  have hok : (ofColumns slackTableau [1, 2, 0] (1 / 100)).isOk = true := by decide +kernel
  obtain ⟨hinverse, hsame, -⟩ := isInverse_of_exchanged hunit hthird
  cases hfound : ofColumns slackTableau [1, 2, 0] (1 / 100) with
  | error e =>
    rw [hfound] at hok
    cases hok
  | ok found => exact ⟨hunit, hthird, rfl, hinverse, found, rfl, hsame _ found hfound⟩

end BasisInverse

end LinearProgramming
