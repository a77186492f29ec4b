import LinearProgramming.CanonicalForm.Edit
import LinearProgramming.Proofs.Model.Edit
import LinearProgramming.Proofs.Tableau.Edit
import LinearProgramming.Proofs.Tableau.Extend

/-! # Edits keep the representation

An edit of a canonical form that represents a model gives one that represents the edited model. New columns and rows
come after all others, so the order in which `CanonicalForm.ofModel` would have listed them is lost; this is why
`CanonicalForm.Represents` does not ask for it. -/

namespace LinearProgramming.CanonicalForm

variable {c : CanonicalForm ℚ} {m : Model ℚ} {i j v : ℕ}

/-! ### Costs -/

theorem columnsOf_eq (hv : v < c.placements.length) : c.columnsOf v = (c.placements[v].columns : List (ℕ × ℚ)) := by
  rw [columnsOf, List.getElem?_eq_getElem hv]

theorem mem_indices_of_mem_columnsOf {r : ℕ × ℚ} (hr : r ∈ c.columnsOf v) :
    ∃ hv : v < c.placements.length, r.1 ∈ c.placements[v].indices := by
  unfold columnsOf at hr
  cases hget : c.placements[v]? with
  | none => simp [hget] at hr
  | some p =>
    obtain ⟨hv, rfl⟩ := List.getElem?_eq_some_iff.mp hget
    rw [hget] at hr
    exact ⟨hv, List.mem_map_of_mem hr⟩

theorem mem_structural_of_mem_columnsOf {r : ℕ × ℚ} (hr : r ∈ c.columnsOf v) :
    r.1 ∈ c.placements.flatMap Placement.indices := by
  obtain ⟨hv, hmem⟩ := mem_indices_of_mem_columnsOf hr
  exact List.mem_flatMap.mpr ⟨_, List.getElem_mem hv, hmem⟩

theorem Represents.ne_of_mem_columnsOf (h : c.Represents m) {w : ℕ} (hw : w < c.placements.length) (hvw : v ≠ w)
    {r s : ℕ × ℚ} (hs : s ∈ c.columnsOf v) (hr : r ∈ (c.placements[w].columns : List (ℕ × ℚ))) : s.1 ≠ r.1 := by
  obtain ⟨hv, hmem⟩ := mem_indices_of_mem_columnsOf hs
  intro heq
  rw [heq] at hmem
  exact h.notMem_indices hv hw hvw hmem (List.mem_map_of_mem hr)

theorem Represents.eq_of_mem_columnsOf (h : c.Represents m) {r s : ℕ × ℚ} (hr : r ∈ c.columnsOf v)
    (hs : s ∈ c.columnsOf v) (heq : r.1 = s.1) : r.2 = s.2 := by
  obtain ⟨hv, -⟩ := mem_indices_of_mem_columnsOf hr
  have hnodup : c.placements[v].indices.Nodup := (List.nodup_flatMap.mp h.nodup_structural).1 _ (List.getElem_mem hv)
  rw [columnsOf_eq hv] at hr hs
  have hinj := List.inj_on_of_nodup_map hnodup hr hs heq
  rw [hinj]

section SetCost

variable (h : c.Represents m) (v : ℕ) (cost : ℚ)

def costCells (c : CanonicalForm ℚ) (v : ℕ) (cost : ℚ) : List (ℕ × ℕ × ℚ) :=
  (c.columnsOf v).map fun p => (0, p.1, -c.direction.sign * p.2 * cost)

theorem tableau_setCost (c : CanonicalForm ℚ) (v : ℕ) (cost : ℚ) :
    (c.setCost v cost).tableau = { c.tableau with matrix := c.tableau.matrix.setEntries (c.costCells v cost) } :=
  Tableau.foldl_setRelativeCost (c.columnsOf v) (fun factor => -c.direction.sign * factor * cost) c.tableau

theorem entry_costCells_of_notMem {i j : ℕ} (hj : i = 0 → ∀ r ∈ c.columnsOf v, r.1 ≠ j) :
    (c.tableau.matrix.setEntries (c.costCells v cost)).entry i j = c.tableau.matrix.entry i j := by
  refine RowMatrix.entry_setEntries_of_notMem fun cell hcell hi => ?_
  obtain ⟨r, hr, rfl⟩ := List.mem_map.mp hcell
  exact hj hi.symm r hr

include h

theorem Represents.entry_costCells_of_mem {r : ℕ × ℚ} (hr : r ∈ c.columnsOf v) :
    (c.tableau.matrix.setEntries (c.costCells v cost)).entry 0 r.1 = -c.direction.sign * r.2 * cost := by
  have hlt : r.1 < c.tableau.nrColumns := h.lt_nrColumns (mem_structural_of_mem_columnsOf hr)
  refine RowMatrix.entry_setEntries_of_mem h.atBasis.wellFormed.rectangular h.atBasis.wellFormed.rows_pos ?_
    (List.mem_map_of_mem hr) fun cell hcell _ heq => ?_
  · rw [h.atBasis.wellFormed.nrColumns_matrix]
    omega
  · obtain ⟨s, hs, rfl⟩ := List.mem_map.mp hcell
    simp only at heq ⊢
    rw [h.eq_of_mem_columnsOf hs hr heq]

theorem Represents.nrRows_setCost : (c.setCost v cost).tableau.nrRows = c.tableau.nrRows := by
  rw [tableau_setCost]
  exact (h.atBasis.wellFormed.shape_setEntries _).1

theorem Represents.nrColumns_setCost : (c.setCost v cost).tableau.nrColumns = c.tableau.nrColumns := by
  rw [tableau_setCost]
  exact (h.atBasis.wellFormed.shape_setEntries _).2

omit h in
theorem matrix_entry_succ_setCost (i j : ℕ) :
    (c.setCost v cost).tableau.matrix.entry (i + 1) j = c.tableau.matrix.entry (i + 1) j := by
  rw [tableau_setCost]
  exact entry_costCells_of_notMem v cost fun hi => absurd hi (Nat.succ_ne_zero i)

theorem Represents.setCost : (c.setCost v cost).Represents (m.setCost v cost) := by
  have hwf := h.atBasis.wellFormed
  have htab := tableau_setCost c v cost
  have hcolumns' := h.nrColumns_setCost v cost
  obtain ⟨hrect, hrows, hcolumns⟩ := RowMatrix.setEntries_shape (c.costCells v cost) hwf.rectangular
  refine ⟨h.direction_eq, ?_, ?_, h.length_placements.trans List.length_set.symm, h.fits, ?_, fun q hq r hr => ?_,
    h.length_rowSources.trans (h.nrRows_setCost v cost).symm, h.hasSource_iff,
    fun i source hsource q hq r hr => ?_, fun i source hsource => ?_, h.nrConstraints_eq⟩
  · rw [htab]
    refine h.atBasis.withMatrix hrect hrows hcolumns fun i _ j hj => entry_costCells_of_notMem v cost fun _ r hr => ?_
    rintro rfl
    exact (Tableau.mem_others.mp (h.mem_others_iff.mpr (mem_structural_of_mem_columnsOf hr))).2 hj
  · rw [Tableau.objectiveValue, hcolumns', htab]
    refine (entry_costCells_of_notMem v cost fun _ r hr => ?_).trans h.objectiveValue_eq
    exact (h.lt_nrColumns (mem_structural_of_mem_columnsOf hr)).ne
  · have hbasis : (c.setCost v cost).tableau.basis = c.tableau.basis := by rw [htab]
    rw [nrColumns, hcolumns', hbasis]
    exact h.columns_perm
  · obtain ⟨w, hw, rfl⟩ := List.mem_iff_getElem.mp hq
    have hw' : w < c.placements.length := by
      rw [List.length_zip] at hw
      exact hw.trans_le (min_le_right _ _)
    have hcost : w < m.cost.length := hw'.trans_eq h.length_placements
    simp only [List.getElem_zip, Model.setCost, List.getElem_set] at hr ⊢
    rw [Tableau.relativeCost, htab]
    by_cases hvw : v = w
    · subst hvw
      rw [if_pos rfl, h.entry_costCells_of_mem v cost (by rw [columnsOf_eq hw']; exact hr), mul_assoc]
      rfl
    · rw [if_neg hvw]
      refine (entry_costCells_of_notMem v cost fun _ s hs => h.ne_of_mem_columnsOf hw' hvw hs hr).trans
        (h.cost_eq (m.cost[w], c.placements[w]) ?_ r hr)
      exact List.mem_iff_getElem.mpr ⟨w, by rw [List.length_zip]; omega, List.getElem_zip ..⟩
  · rw [Model.sourceCoefficients_setCost] at hq
    exact (matrix_entry_succ_setCost v cost i r.1).trans (h.entry_eq i source hsource q hq r hr)
  · rw [Tableau.rhs, hcolumns', matrix_entry_succ_setCost]
    exact h.rhs_eq i source hsource

end SetCost

/-! ### Right hand sides -/

theorem mem_constraintRows {α : Type} [Scalar α] {c : CanonicalForm α} {index : ℕ} {p : ℕ × α} :
    p ∈ c.constraintRows index ↔
      ∃ half, c.rowSources[p.1]? = some (.constraint index half) ∧ p.2 = half.sign := by
  obtain ⟨i, sign⟩ := p
  simp only [constraintRows, List.mem_filterMap, Prod.exists, List.mem_zipIdx_iff_getElem?]
  constructor
  · rintro ⟨source, k, hget, hsome⟩
    cases source with
    | binaryBound w => simp at hsome
    | constraint n half =>
      simp only [beq_iff_eq, Option.ite_none_right_eq_some, Option.some.injEq, Prod.mk.injEq] at hsome
      obtain ⟨rfl, rfl, rfl⟩ := hsome
      exact ⟨half, hget, rfl⟩
  · rintro ⟨half, hget, rfl⟩
    exact ⟨_, i, hget, by simp⟩

section SetRhs

variable (h : c.Represents m) (index : ℕ) (rhs : ℚ)

def rhsCells (c : CanonicalForm ℚ) (index : ℕ) (rhs : ℚ) : List (ℕ × ℕ × ℚ) :=
  (c.constraintRows index).map fun p => (p.1 + 1, c.tableau.nrColumns, p.2 * rhs)

theorem tableau_setRhs (c : CanonicalForm ℚ) (index : ℕ) (rhs : ℚ) :
    (c.setRhs index rhs).tableau = { c.tableau with matrix := c.tableau.matrix.setEntries (c.rhsCells index rhs) } :=
  Tableau.foldl_setRhs (c.constraintRows index) (fun sign => sign * rhs) c.tableau

theorem entry_rhsCells_of_notMem {i j : ℕ} (hj : j = c.tableau.nrColumns → ∀ p ∈ c.constraintRows index, p.1 + 1 ≠ i) :
    (c.tableau.matrix.setEntries (c.rhsCells index rhs)).entry i j = c.tableau.matrix.entry i j := by
  refine RowMatrix.entry_setEntries_of_notMem fun cell hcell hi heq => ?_
  obtain ⟨p, hp, rfl⟩ := List.mem_map.mp hcell
  exact hj heq.symm p hp hi

include h

theorem Represents.entry_rhsCells_of_mem {half : Relation} (hsource : c.rowSources[i]? = some (.constraint index half)) :
    (c.tableau.matrix.setEntries (c.rhsCells index rhs)).entry (i + 1) c.tableau.nrColumns = half.sign * rhs := by
  have hwf := h.atBasis.wellFormed
  have hi : i < c.tableau.nrRows := h.lt_nrRows hsource
  have hrow : (i, (half.sign : ℚ)) ∈ c.constraintRows index := mem_constraintRows.mpr ⟨half, hsource, rfl⟩
  refine RowMatrix.entry_setEntries_of_mem hwf.rectangular (by rw [hwf.nrRows_matrix]; omega)
    (by rw [hwf.nrColumns_matrix]; omega) (List.mem_map_of_mem (f := fun p => (p.1 + 1, _, p.2 * rhs)) hrow) ?_
  intro cell hcell hrow' _
  obtain ⟨p, hp, rfl⟩ := List.mem_map.mp hcell
  obtain ⟨half', hsource', hsign⟩ := mem_constraintRows.mp hp
  simp only [Nat.add_right_cancel_iff] at hrow'
  rw [hrow', hsource] at hsource'
  simp only [Option.some.injEq, RowSource.constraint.injEq, true_and] at hsource'
  simp only [hsign, hsource']

theorem Represents.nrRows_setRhs : (c.setRhs index rhs).tableau.nrRows = c.tableau.nrRows := by
  rw [tableau_setRhs]
  exact (h.atBasis.wellFormed.shape_setEntries _).1

theorem Represents.nrColumns_setRhs : (c.setRhs index rhs).tableau.nrColumns = c.tableau.nrColumns := by
  rw [tableau_setRhs]
  exact (h.atBasis.wellFormed.shape_setEntries _).2

omit h in
theorem matrix_entry_setRhs_of_lt (hj : j < c.tableau.nrColumns) :
    (c.setRhs index rhs).tableau.matrix.entry i j = c.tableau.matrix.entry i j := by
  rw [tableau_setRhs]
  exact entry_rhsCells_of_notMem index rhs fun heq => absurd heq hj.ne

theorem Represents.setRhs : (c.setRhs index rhs).Represents (m.setRhs index rhs) := by
  have hwf := h.atBasis.wellFormed
  have htab := tableau_setRhs c index rhs
  have hcolumns' := h.nrColumns_setRhs index rhs
  obtain ⟨hrect, hrows, hcolumns⟩ := RowMatrix.setEntries_shape (c.rhsCells index rhs) hwf.rectangular
  refine ⟨h.direction_eq, ?_, ?_, h.length_placements, h.fits, ?_, fun q hq r hr => ?_,
    h.length_rowSources.trans (h.nrRows_setRhs index rhs).symm, fun source => ?_, fun i source hsource q hq r hr => ?_,
    fun i source hsource => ?_, ?_⟩
  · rw [htab]
    refine h.atBasis.withMatrix hrect hrows hcolumns fun i _ j hj => ?_
    exact entry_rhsCells_of_notMem index rhs fun heq => absurd heq (hwf.basis_lt j hj).ne
  · rw [Tableau.objectiveValue, hcolumns', htab]
    exact (entry_rhsCells_of_notMem index rhs fun _ p _ => Nat.succ_ne_zero p.1).trans h.objectiveValue_eq
  · have hbasis : (c.setRhs index rhs).tableau.basis = c.tableau.basis := by rw [htab]
    rw [nrColumns, hcolumns', hbasis]
    exact h.columns_perm
  · exact (matrix_entry_setRhs_of_lt index rhs (h.fst_lt_nrColumns hq hr)).trans (h.cost_eq q hq r hr)
  · rw [Model.hasSource_setRhs]
    exact h.hasSource_iff source
  · rw [Model.sourceCoefficients_setRhs] at hq
    exact (matrix_entry_setRhs_of_lt index rhs (h.fst_lt_nrColumns hq hr)).trans
      (h.entry_eq i source hsource q hq r hr)
  · rw [Tableau.rhs, hcolumns', htab]
    by_cases hconstraint : ∃ half, source = .constraint index half
    · obtain ⟨half, rfl⟩ := hconstraint
      have hhas := (h.hasSource_iff _).mp (List.mem_of_getElem? hsource)
      rw [Model.sourceRhs_setRhs_self hhas]
      exact h.entry_rhsCells_of_mem index rhs hsource
    · have hne : ∀ half, source ≠ .constraint index half := fun half heq => hconstraint ⟨half, heq⟩
      rw [Model.sourceRhs_setRhs_of_ne hne]
      refine (entry_rhsCells_of_notMem index rhs fun _ p hp heq => ?_).trans (h.rhs_eq i source hsource)
      obtain ⟨half, hsource', -⟩ := mem_constraintRows.mp hp
      rw [Nat.add_right_cancel heq, show c.rowSources[i]? = some source from hsource] at hsource'
      exact hne half (Option.some.inj hsource')
  · refine h.nrConstraints_eq.trans ?_
    simp [Model.nrConstraints, Model.setRhs]

end SetRhs

/-! ### Coefficients -/

section SetCoefficient

variable (h : c.Represents m) (index v : ℕ) (value : ℚ)

def coefficientCells (c : CanonicalForm ℚ) (index v : ℕ) (value : ℚ) : List (ℕ × ℕ × ℚ) :=
  (c.constraintRows index).flatMap fun p => (c.columnsOf v).map fun r => (p.1 + 1, r.1, p.2 * r.2 * value)

theorem tableau_setCoefficient (c : CanonicalForm ℚ) (index v : ℕ) (value : ℚ) :
    (c.setCoefficient index v value).tableau =
      { c.tableau with matrix := c.tableau.matrix.setEntries (c.coefficientCells index v value) } :=
  Tableau.foldl_foldl_setEntry (c.constraintRows index) (c.columnsOf v) (fun sign factor => sign * factor * value)
    c.tableau

theorem mem_coefficientCells {cell : ℕ × ℕ × ℚ} :
    cell ∈ c.coefficientCells index v value ↔ ∃ i half, c.rowSources[i]? = some (.constraint index half) ∧
      ∃ r ∈ c.columnsOf v, cell = (i + 1, r.1, half.sign * r.2 * value) := by
  simp only [coefficientCells, List.mem_flatMap, List.mem_map, mem_constraintRows]
  constructor
  · rintro ⟨⟨i, sign⟩, ⟨half, hsource, rfl⟩, r, hr, rfl⟩
    exact ⟨i, half, hsource, r, hr, rfl⟩
  · rintro ⟨i, half, hsource, r, hr, rfl⟩
    exact ⟨(i, half.sign), ⟨half, hsource, rfl⟩, r, hr, rfl⟩

theorem matrix_entry_setCoefficient_of_notMem {i j : ℕ}
    (hj : ∀ k half, i = k + 1 → c.rowSources[k]? = some (.constraint index half) → ∀ r ∈ c.columnsOf v, r.1 ≠ j) :
    (c.setCoefficient index v value).tableau.matrix.entry i j = c.tableau.matrix.entry i j := by
  rw [tableau_setCoefficient]
  refine RowMatrix.entry_setEntries_of_notMem fun cell hcell hi => ?_
  obtain ⟨k, half, hsource, r, hr, rfl⟩ := (mem_coefficientCells index v value).mp hcell
  exact hj k half hi.symm hsource r hr

include h

theorem Represents.entry_setCoefficient_of_mem {half : Relation}
    (hsource : c.rowSources[i]? = some (.constraint index half)) {r : ℕ × ℚ} (hr : r ∈ c.columnsOf v) :
    (c.setCoefficient index v value).tableau.entry i r.1 = half.sign * r.2 * value := by
  have hwf := h.atBasis.wellFormed
  have hi : i < c.tableau.nrRows := h.lt_nrRows hsource
  have hlt : r.1 < c.tableau.nrColumns := h.lt_nrColumns (mem_structural_of_mem_columnsOf hr)
  rw [Tableau.entry, tableau_setCoefficient]
  refine RowMatrix.entry_setEntries_of_mem hwf.rectangular (by rw [hwf.nrRows_matrix]; omega)
    (by rw [hwf.nrColumns_matrix]; omega) ((mem_coefficientCells index v value).mpr ⟨i, half, hsource, r, hr, rfl⟩) ?_
  intro cell hcell hrow hcolumn
  obtain ⟨k, half', hsource', s, hs, rfl⟩ := (mem_coefficientCells index v value).mp hcell
  obtain rfl : k = i := Nat.add_right_cancel hrow
  rw [hsource] at hsource'
  obtain ⟨-, rfl⟩ := RowSource.constraint.inj (Option.some.inj hsource')
  rw [h.eq_of_mem_columnsOf hs hr hcolumn]

theorem Represents.nrRows_setCoefficient :
    (c.setCoefficient index v value).tableau.nrRows = c.tableau.nrRows := by
  rw [tableau_setCoefficient]
  exact (h.atBasis.wellFormed.shape_setEntries _).1

theorem Represents.nrColumns_setCoefficient :
    (c.setCoefficient index v value).tableau.nrColumns = c.tableau.nrColumns := by
  rw [tableau_setCoefficient]
  exact (h.atBasis.wellFormed.shape_setEntries _).2

theorem Represents.setCoefficient :
    (c.setCoefficient index v value).Represents (m.setCoefficient index v value) := by
  have hwf := h.atBasis.wellFormed
  have htab := tableau_setCoefficient c index v value
  have hcolumns' := h.nrColumns_setCoefficient index v value
  obtain ⟨hrect, hrows, hcolumns⟩ := RowMatrix.setEntries_shape (c.coefficientCells index v value) hwf.rectangular
  -- slack columns and right hand sides are not columns of the variable
  have hother : ∀ i j, j ∉ c.placements.flatMap Placement.indices →
      (c.setCoefficient index v value).tableau.matrix.entry i j = c.tableau.matrix.entry i j := by
    intro i j hj
    refine matrix_entry_setCoefficient_of_notMem index v value fun _ _ _ _ r hr => ?_
    rintro rfl
    exact hj (mem_structural_of_mem_columnsOf hr)
  have hlast : c.tableau.nrColumns ∉ c.placements.flatMap Placement.indices :=
    fun hmem => lt_irrefl _ (h.lt_nrColumns hmem)
  refine ⟨h.direction_eq, ?_, ?_, h.length_placements, h.fits, ?_, fun q hq r hr => ?_,
    h.length_rowSources.trans (h.nrRows_setCoefficient index v value).symm, fun source => ?_,
    fun i source hsource q hq r hr => ?_, fun i source hsource => ?_, ?_⟩
  · rw [htab]
    refine h.atBasis.withMatrix hrect hrows hcolumns fun i _ j hj => ?_
    rw [← hother i j fun hmem => (Tableau.mem_others.mp (h.mem_others_iff.mpr hmem)).2 hj, htab]
  · rw [Tableau.objectiveValue, hcolumns', hother 0 _ hlast]
    exact h.objectiveValue_eq
  · have hbasis : (c.setCoefficient index v value).tableau.basis = c.tableau.basis := by rw [htab]
    rw [nrColumns, hcolumns', hbasis]
    exact h.columns_perm
  · refine Eq.trans ?_ (h.cost_eq q hq r hr)
    exact matrix_entry_setCoefficient_of_notMem index v value fun k _ hk => absurd hk.symm (Nat.succ_ne_zero k)
  · rw [Model.hasSource_setCoefficient]
    exact h.hasSource_iff source
  · have hsource' : c.rowSources[i]? = some source := hsource
    by_cases hconstraint : ∃ half, source = .constraint index half
    · obtain ⟨half, rfl⟩ := hconstraint
      have hhas := (h.hasSource_iff _).mp (List.mem_of_getElem? hsource')
      rw [Model.sourceCoefficients_setCoefficient_self v value hhas] at hq
      obtain ⟨w, hw, rfl⟩ := List.mem_iff_getElem.mp hq
      rw [List.length_zip, List.length_set] at hw
      have hw' : w < c.placements.length := hw.trans_le (min_le_right _ _)
      have hdata : w < (m.sourceCoefficients (.constraint index half)).length := hw.trans_le (min_le_left _ _)
      simp only [List.getElem_zip, List.getElem_set] at hr ⊢
      by_cases hvw : v = w
      · subst hvw
        rw [if_pos rfl, h.entry_setCoefficient_of_mem index v value hsource' (by rw [columnsOf_eq hw']; exact hr),
          mul_assoc]
        rfl
      · rw [if_neg hvw]
        refine (matrix_entry_setCoefficient_of_notMem index v value fun _ _ _ _ s hs =>
          h.ne_of_mem_columnsOf hw' hvw hs hr).trans
          (h.entry_eq i _ hsource' ((m.sourceCoefficients (.constraint index half))[w], c.placements[w]) ?_ r hr)
        exact List.mem_iff_getElem.mpr ⟨w, by rw [List.length_zip]; omega, List.getElem_zip ..⟩
    · have hne : ∀ half, source ≠ .constraint index half := fun half heq => hconstraint ⟨half, heq⟩
      rw [Model.sourceCoefficients_setCoefficient_of_ne v value hne] at hq
      refine (matrix_entry_setCoefficient_of_notMem index v value fun k half hk hsource'' => ?_).trans
        (h.entry_eq i source hsource' q hq r hr)
      rw [← Nat.add_right_cancel hk, hsource'] at hsource''
      exact absurd (Option.some.inj hsource'') (hne half)
  · rw [Tableau.rhs, hcolumns', hother (i + 1) _ hlast, Model.sourceRhs_setCoefficient]
    exact h.rhs_eq i source hsource
  · refine h.nrConstraints_eq.trans ?_
    simp [Model.nrConstraints, Model.setCoefficient]

end SetCoefficient

/-! ### Variables -/

section AddVariable

variable {coefficients : List ℚ} (h : c.Represents m)
include h

theorem Represents.length_newColumn (cost : ℚ) (coefficients : List ℚ) :
    ((-c.direction.sign * cost) :: c.rowSources.map (sourceCoefficient coefficients)).length =
      c.tableau.nrRows + 1 := by
  rw [List.length_cons, List.length_map, h.length_rowSources]

omit h in
theorem sourceCoefficient_eq (coefficients : List ℚ) (source : RowSource) :
    (sourceCoefficient coefficients source : ℚ) = source.sign * (1 * Model.newCoefficient coefficients source) := by
  cases source with
  | constraint k half => exact congrArg (half.sign * ·) (one_mul _).symm
  | binaryBound w =>
    show (0 : ℚ) = 1 * (1 * 0)
    rw [mul_zero, mul_zero]

theorem Represents.addVariable (hm : m.Valid) (hlen : coefficients.length = m.nrConstraints) (cost : ℚ) :
    (c.addVariable cost coefficients).Represents (m.addVariable cost coefficients) := by
  have hwf := h.atBasis.wellFormed
  have hcol := h.length_newColumn cost coefficients
  have hold : ∀ i < c.tableau.nrRows + 1, ∀ j < c.tableau.nrColumns,
      (c.addVariable cost coefficients).tableau.matrix.entry i j = c.tableau.matrix.entry i j :=
    fun i hi j hj => hwf.matrix_entry_addColumn_of_lt hcol hi hj
  have hnew : ∀ r ∈ ((Placement.direct c.nrColumns).columns : List (ℕ × ℚ)), r = (c.tableau.nrColumns, 1) :=
    fun r hr => List.mem_singleton.mp hr
  refine ⟨h.direction_eq, h.atBasis.addColumn hcol, ?_, ?_, fun q hq => ?_, ?_, fun q hq r hr => ?_, ?_,
    fun source => ?_, fun i source hsource q hq r hr => ?_, fun i source hsource => ?_, ?_⟩
  · exact (hwf.matrix_entry_addColumn_last hcol (by omega)).trans h.objectiveValue_eq
  · simp only [CanonicalForm.addVariable, Model.addVariable, Model.nrVariables, List.length_append,
      List.length_singleton]
    rw [h.length_placements]
    rfl
  · simp only [CanonicalForm.addVariable, Model.addVariable] at hq
    rw [List.zip_append (h.length_placements.trans hm.length_domains.symm)] at hq
    rcases List.mem_append.mp hq with hq | hq
    · exact h.fits q hq
    · rw [List.mem_singleton.mp hq]
      exact Or.inl rfl
  · have hcolumns : (c.addVariable cost coefficients).nrColumns = c.nrColumns + 1 := hwf.nrColumns_addColumn
    rw [hcolumns, List.range_succ]
    have hflat : (c.addVariable cost coefficients).placements.flatMap Placement.indices =
        c.placements.flatMap Placement.indices ++ [c.nrColumns] := by
      simp [CanonicalForm.addVariable, Placement.indices, Placement.columns]
    rw [hflat, List.append_assoc]
    refine (List.Perm.append_left _ List.perm_append_comm).trans ?_
    rw [← List.append_assoc]
    exact h.columns_perm.append_right _
  · simp only [CanonicalForm.addVariable, Model.addVariable] at hq
    rw [List.zip_append (by rw [h.length_placements]; rfl)] at hq
    rcases List.mem_append.mp hq with hq | hq
    · exact (hold 0 (by omega) r.1 (h.fst_lt_nrColumns hq hr)).trans (h.cost_eq q hq r hr)
    · rw [List.mem_singleton.mp hq] at hr ⊢
      rw [hnew r hr, one_mul]
      exact hwf.matrix_entry_addColumn_self hcol (by omega)
  · exact h.length_rowSources.trans (hwf.nrRows_addColumn hcol).symm
  · rw [Model.hasSource_addVariable hlen]
    exact h.hasSource_iff source
  · have hsource' : c.rowSources[i]? = some source := hsource
    have hhas := (h.hasSource_iff _).mp (List.mem_of_getElem? hsource')
    rw [Model.sourceCoefficients_addVariable hlen cost hm hhas] at hq
    simp only [CanonicalForm.addVariable] at hq
    rw [List.zip_append ((hm.length_sourceCoefficients hhas).trans h.length_placements.symm)] at hq
    rcases List.mem_append.mp hq with hq | hq
    · exact (hold (i + 1) (by have := h.lt_nrRows hsource'; omega) r.1 (h.fst_lt_nrColumns hq hr)).trans
        (h.entry_eq i source hsource' q hq r hr)
    · rw [List.mem_singleton.mp hq] at hr ⊢
      rw [hnew r hr]
      refine (hwf.matrix_entry_addColumn_self hcol (by have := h.lt_nrRows hsource'; omega)).trans ?_
      rw [List.getD_cons_succ, List.getD_eq_getElem?_getD, List.getElem?_map, hsource', Option.map_some,
        Option.getD_some, sourceCoefficient_eq]
  · have hsource' : c.rowSources[i]? = some source := hsource
    rw [Model.sourceRhs_addVariable hlen]
    exact (hwf.matrix_entry_addColumn_last hcol (by have := h.lt_nrRows hsource'; omega)).trans (h.rhs_eq i source hsource')
  · refine h.nrConstraints_eq.trans ?_
    have hlen' : coefficients.length = m.constraints.length := hlen
    simp [Model.nrConstraints, Model.addVariable, hlen']

end AddVariable

/-! ### Constraints -/

theorem Represents.getD_canonicalCoefficients_basis (h : c.Represents m) {coefficients : List ℚ}
    (hlen : coefficients.length = m.nrVariables) (hj : j ∈ c.tableau.basis) :
    (c.canonicalCoefficients coefficients).getD j 0 = 0 := by
  refine Placement.getD_spread_of_notMem h.nodup_structural (fun k hk => h.lt_nrColumns hk)
    (hlen.trans h.length_placements.symm) fun hmem => ?_
  exact (Tableau.mem_others.mp (h.mem_others_iff.mpr hmem)).2 hj

theorem Represents.appends_addConstraint (h : c.Represents m) {coefficients : List ℚ}
    (hlen : coefficients.length = m.nrVariables) (relation : Relation) (rhs : ℚ) :
    c.tableau.Appends (c.canonicalCoefficients coefficients) relation.halves rhs
      (c.addConstraint coefficients relation rhs).tableau := by
  have hlength : (c.canonicalCoefficients coefficients).length ≤ c.tableau.nrColumns := by
    rw [canonicalCoefficients, Placement.length_spread]
    exact le_rfl
  exact h.atBasis.appends_addConstraint hlength (fun j hj => h.getD_canonicalCoefficients_basis hlen hj) relation rhs

theorem Represents.addConstraint (h : c.Represents m) {coefficients : List ℚ}
    (hlen : coefficients.length = m.nrVariables) (relation : Relation) (rhs : ℚ) :
    (c.addConstraint coefficients relation rhs).Represents (m.addConstraint coefficients relation rhs) := by
  have happ := h.appends_addConstraint hlen relation rhs
  -- a row of the new form is an old one, or that of a half of the new constraint
  have hrows : ∀ {i source}, (c.addConstraint coefficients relation rhs).rowSources[i]? = some source →
      (c.rowSources[i]? = some source ∧ i < c.tableau.nrRows) ∨
        ∃ k half, i = c.tableau.nrRows + k ∧ relation.halves[k]? = some half ∧
          source = .constraint m.nrConstraints half := by
    intro i source hsource
    simp only [CanonicalForm.addConstraint, List.getElem?_append] at hsource
    rw [← h.length_rowSources]
    split_ifs at hsource with hi
    · exact Or.inl ⟨hsource, hi⟩
    · rw [List.getElem?_map, Option.map_eq_some_iff] at hsource
      obtain ⟨half, hhalf, rfl⟩ := hsource
      exact Or.inr ⟨_, half, by omega, hhalf, by rw [h.nrConstraints_eq]⟩
  refine ⟨h.direction_eq, happ.atBasis, happ.objectiveValue_eq.trans h.objectiveValue_eq, h.length_placements,
    h.fits, ?_, fun q hq r hr => ?_, ?_, fun source => ?_, fun i source hsource q hq r hr => ?_,
    fun i source hsource => ?_, ?_⟩
  · have hcolumns : (c.addConstraint coefficients relation rhs).nrColumns = c.nrColumns + relation.halves.length :=
      happ.nrColumns_eq
    have hbasis : (c.addConstraint coefficients relation rhs).tableau.basis =
        c.tableau.basis ++ List.range' c.nrColumns relation.halves.length := happ.basis_eq
    rw [hcolumns, hbasis, ← List.append_assoc, List.range_add]
    refine List.Perm.append h.columns_perm ?_
    rw [List.range'_eq_map_range]
  · exact (happ.relativeCost_eq r.1 (h.fst_lt_nrColumns hq hr)).trans (h.cost_eq q hq r hr)
  · refine Eq.trans ?_ happ.nrRows_eq.symm
    rw [CanonicalForm.addConstraint, List.length_append, List.length_map, h.length_rowSources]
  · rw [Model.hasSource_addConstraint_iff, ← h.hasSource_iff, CanonicalForm.addConstraint, List.mem_append,
      List.mem_map, h.nrConstraints_eq]
    simp only [eq_comm]
  · obtain ⟨hold, hi⟩ | ⟨k, half, rfl, hhalf, rfl⟩ := hrows hsource
    · have hhas := (h.hasSource_iff _).mp (List.mem_of_getElem? hold)
      rw [Model.sourceCoefficients_addConstraint _ _ _ hhas] at hq
      exact (happ.entry_eq i hi r.1 (h.fst_lt_nrColumns hq hr)).trans (h.entry_eq i source hold q hq r hr)
    · simp only [Model.sourceCoefficients, Model.getElem?_addConstraint_self, Option.map_some, Option.getD_some] at hq
      refine (happ.new_entry k half hhalf r.1 (h.fst_lt_nrColumns hq hr)).trans ?_
      refine congrArg (half.sign * ·) ?_
      exact Placement.getD_spread h.nodup_structural (fun k hk => h.lt_nrColumns hk)
        (hlen.trans h.length_placements.symm) q hq r hr
  · obtain ⟨hold, hi⟩ | ⟨k, half, rfl, hhalf, rfl⟩ := hrows hsource
    · have hhas := (h.hasSource_iff _).mp (List.mem_of_getElem? hold)
      rw [Model.sourceRhs_addConstraint _ _ _ hhas]
      exact (happ.rhs_eq i hi).trans (h.rhs_eq i source hold)
    · simp only [Model.sourceRhs, Model.getElem?_addConstraint_self, Option.map_some, Option.getD_some]
      exact happ.new_rhs k half hhalf
  · simp [CanonicalForm.addConstraint, Model.addConstraint, Model.nrConstraints, h.nrConstraints_eq]

end LinearProgramming.CanonicalForm
