import LinearProgramming.Integer.CuttingPlane
import LinearProgramming.Proofs.Tableau.Shape

/-! # Tableaus that stay well formed

The basis is kept twice, as a list and as a mask, beside a matrix that grows by rows and columns. Each step of the
algorithms keeps the three in agreement, whatever the numbers are: a pivot on a column that is not basic
(`WellFormed.pivot`), a new inequality with its slack column (`WellFormed.addInequality`) and a cut
(`WellFormed.addCut`). Also, all that is chosen from a well formed tableau lies in it (`WellFormed.choosesInside`). No
comparison of numbers is used, so that an undefined number changes nothing. -/

namespace LinearProgramming.Tableau

variable {α : Type} {t : Tableau α}

/-! ### Shapes -/

theorem WellFormed.hasShape (h : t.WellFormed) : t.HasShape t.nrRows t.nrColumns :=
  ⟨⟨h.nrRows_matrix, h.nrColumns_matrix, h.rectangular⟩, h.basis_length, h.basis_lt, h.mask_length⟩

theorem HasShape.wellFormed_ofMatrix {M : RowMatrix α} {basis : List ℕ} {m n : ℕ}
    (h : (ofMatrix M basis).HasShape m n) (hnodup : basis.Nodup) : (ofMatrix M basis).WellFormed := by
  have hrows : M.nrRows = m + 1 := h.matrix.nrRows_eq
  have hcolumns : M.nrColumns = n + 1 := h.matrix.nrColumns_eq
  refine Tableau.wellFormed_ofMatrix h.matrix.rectangular (by omega) (by omega) ?_ hnodup fun j hj => ?_
  · rw [hrows, Nat.add_sub_cancel]
    exact h.length_basis
  · rw [hcolumns, Nat.add_sub_cancel]
    exact h.basis_lt j hj

variable [Scalar α]

/-! ### New rows -/

theorem WellFormed.addInequality (h : t.WellFormed) {coefficients : List α} (hlen : coefficients.length ≤ t.nrColumns)
    (sign rhs : α) : (t.addInequality coefficients sign rhs).WellFormed := by
  have hshape := h.hasShape.addInequality hlen sign rhs
  exact h.appendBasic hshape.matrix.rectangular hshape.matrix.nrRows_eq hshape.matrix.nrColumns_eq

theorem WellFormed.nrColumns_addConstraint (h : t.WellFormed) {coefficients : List α}
    (hlen : coefficients.length ≤ t.nrColumns) (relation : Relation) (rhs : α) :
    (t.addConstraint coefficients relation rhs).nrColumns = t.nrColumns + relation.halves.length :=
  (h.hasShape.addConstraint hlen relation rhs).nrColumns_eq

/-- An equality appends its two halves one after the other. -/
theorem WellFormed.addConstraint (h : t.WellFormed) {coefficients : List α} (hlen : coefficients.length ≤ t.nrColumns)
    (relation : Relation) (rhs : α) : (t.addConstraint coefficients relation rhs).WellFormed := by
  unfold Tableau.addConstraint
  generalize relation.halves = halves
  induction halves generalizing t with
  | nil => exact h
  | cons half rest ih =>
    have hcolumns := (h.hasShape.addInequality hlen half.sign rhs).nrColumns_eq
    rw [List.foldl_cons]
    exact ih (h.addInequality hlen _ rhs) (by rw [hcolumns]; exact hlen.trans (Nat.le_succ _))

/-! ### Choices -/

/-- The rows and columns that are chosen from the tableau lie in it, and the entering columns are not basic. -/
structure ChoosesInside (t : Tableau α) (ε : α) : Prop where
  entering : ∀ (rule : EnteringRule) p, rule.select? t.nonBasicCosts ε = some p → p.1 < t.nrColumns ∧ p.1 ∉ t.basis
  dualColumn : ∀ row j, t.dualColumn? row ε = some j → j < t.nrColumns ∧ j ∉ t.basis
  dualRow : ∀ i, t.dualRow? ε = some i → i < t.nrRows
  primalRow : ∀ column i, t.primalRow? column ε = some i → i < t.nrRows
  primalRowByLowestBasic : ∀ column i, t.primalRowByLowestBasic? column ε = some i → i < t.nrRows
  cut : ∀ mask cut, t.cut? mask ε = some cut → cut.sourceRow < t.nrRows ∧ cut.coefficients.length = t.nrColumns

theorem WellFormed.length_cut (h : t.WellFormed) {mask : List Bool} {ε : α} {cut : Cut α}
    (hcut : t.cut? mask ε = some cut) : cut.sourceRow < t.nrRows ∧ cut.coefficients.length = t.nrColumns := by
  rw [cut?, Option.map_eq_some_iff] at hcut
  obtain ⟨i, hfind, rfl⟩ := hcut
  have hi : i < t.nrRows := List.mem_range.mp (List.mem_of_find?_eq_some hfind)
  refine ⟨hi, ?_⟩
  rw [List.length_map, h.length_row hi]

theorem WellFormed.choosesInside (h : t.WellFormed) (ε : α) : t.ChoosesInside ε where
  entering _ _ hp := h.mem_nonBasicColumns.mp (mem_of_select?_eq_some hp)
  dualColumn _ _ hj := h.mem_nonBasicColumns.mp (mem_of_dualColumn?_eq_some hj)
  dualRow _ hi := lt_of_dualRow?_eq_some hi
  primalRow _ _ hi := lt_of_primalRow?_eq_some hi
  primalRowByLowestBasic _ _ hi := lt_of_primalRowByLowestBasic?_eq_some hi
  cut _ _ hcut := h.length_cut hcut

/-! ### Cuts -/

section Cuts

variable {mask : List Bool} {ε : α} {cut : Cut α}

theorem WellFormed.addCut (h : t.WellFormed) (hcut : t.cut? mask ε = some cut) : (t.addCut cut).WellFormed :=
  h.addConstraint (h.length_cut hcut).2.le .greater cut.rhs

theorem WellFormed.nrColumns_addCut (h : t.WellFormed) (hcut : t.cut? mask ε = some cut) :
    (t.addCut cut).nrColumns = t.nrColumns + 1 :=
  h.nrColumns_addConstraint (h.length_cut hcut).2.le .greater cut.rhs

end Cuts

end LinearProgramming.Tableau
