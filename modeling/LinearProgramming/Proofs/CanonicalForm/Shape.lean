import LinearProgramming.Proofs.CanonicalForm.Build
import LinearProgramming.Proofs.CanonicalForm.Edit
import LinearProgramming.Proofs.Tableau.Shape

/-! # Shapes of canonical forms

The tableau of a canonical form has a row for each row source, its placements name columns of the tableau, and every
constraint has a row. This holds of the canonical form of every model and through all edits, whatever the scalars and
the arguments are. -/

namespace LinearProgramming

variable {α : Type} [Scalar α]

/-- The indices that a canonical form keeps are those of rows and columns of its tableau. -/
structure CanonicalForm.Sized (c : CanonicalForm α) : Prop where
  tableau : c.tableau.HasShape c.nrRows c.nrColumns
  placement_lt : ∀ j ∈ c.placements.flatMap Placement.indices, j < c.nrColumns
  exists_source : ∀ index < c.nrConstraints, ∃ half, .constraint index half ∈ c.rowSources

namespace CanonicalForm

/-! ### The canonical form of a model -/

theorem hasShape_tableau_ofModel (m : Model α) : (ofModel m).tableau.HasShape (modelRows m).length
    (m.nrVariables + m.domains.count .free + (modelRows m).length) := by
  unfold ofModel
  refine Tableau.hasShape_ofMatrix (RowMatrix.hasShape_ofRows ?_ fun line hline => ?_) ?_ fun j hj => ?_
  · rw [List.length_cons, List.length_mapIdx]
  · rcases List.mem_cons.mp hline with rfl | hline
    · rw [List.length_append, List.length_map, Placement.length_spread, List.length_replicate]
      rfl
    · obtain ⟨i, hi, rfl⟩ := List.mem_mapIdx.mp hline
      rw [List.length_append, List.length_append, List.length_map, Placement.length_spread,
        RowMatrix.length_unitVector, List.length_singleton]
  · rw [List.length_map, List.length_range]
  · obtain ⟨i, hi, rfl⟩ := List.mem_map.mp hj
    exact Nat.add_lt_add_left (List.mem_range.mp hi) _

theorem sized_ofModel {m : Model α} (hdomains : m.domains.length = m.nrVariables) : (ofModel m).Sized := by
  have hshape := hasShape_tableau_ofModel m
  have hrows : (ofModel m).nrRows = (modelRows m).length := List.length_map _
  have hcolumns := hshape.nrColumns_eq
  refine ⟨?_, fun j hj => ?_, fun index hindex => ?_⟩
  · rw [nrColumns, hcolumns, hrows]
    exact hshape
  · have hlt := Placement.lt_of_mem_indices_ofDomains hj
    rw [nrColumns, hcolumns, ← hdomains]
    exact Nat.lt_add_right _ hlt
  · have hget : m.constraints[index]? = some m.constraints[index] := List.getElem?_eq_getElem hindex
    obtain ⟨half, hhalf⟩ : ∃ half, half ∈ m.constraints[index].relation.halves := by
      cases m.constraints[index].relation <;> exact ⟨_, List.mem_cons_self ..⟩
    refine ⟨half, List.mem_map.mpr ⟨(.constraint index half, m.constraints[index].coefficients,
      m.constraints[index].rhs), List.mem_append_left _ ?_, rfl⟩⟩
    exact List.mem_flatMap.mpr ⟨(m.constraints[index], index), List.mem_zipIdx_iff_getElem?.mpr hget,
      List.mem_map.mpr ⟨half, hhalf, rfl⟩⟩

namespace Sized

variable {c : CanonicalForm α}

theorem constraintRow_lt {index : ℕ} {p : ℕ × α} (hp : p ∈ c.constraintRows index) : p.1 < c.nrRows := by
  obtain ⟨half, hsource, -⟩ := mem_constraintRows.mp hp
  exact (List.getElem?_eq_some_iff.mp hsource).1

theorem constraintRows_ne_nil (h : c.Sized) {index : ℕ} (hindex : index < c.nrConstraints) :
    c.constraintRows index ≠ [] := by
  obtain ⟨half, hhalf⟩ := h.exists_source index hindex
  obtain ⟨i, hi⟩ := List.mem_iff_getElem?.mp hhalf
  exact List.ne_nil_of_mem (mem_constraintRows.mpr ⟨half, hi, rfl⟩ : (i, half.sign) ∈ c.constraintRows index)

/-! ### Edits -/

omit [Scalar α] in
theorem withTableau (h : c.Sized) {t : Tableau α} (ht : t.HasShape c.nrRows c.nrColumns) :
    ({ c with tableau := t } : CanonicalForm α).Sized := by
  have hcolumns : ({ c with tableau := t } : CanonicalForm α).nrColumns = c.nrColumns := ht.nrColumns_eq
  refine ⟨?_, ?_, h.exists_source⟩
  · rw [hcolumns]
    exact ht
  · rw [hcolumns]
    exact h.placement_lt

theorem hasShape_setCost (h : c.Sized) (v : ℕ) (cost : α) :
    (c.setCost v cost).tableau.HasShape c.nrRows c.nrColumns := by
  refine List.foldlRecOn (motive := fun t : Tableau α => t.HasShape c.nrRows c.nrColumns) _ _ h.tableau
    fun t ht p _ => ?_
  exact ht.setRelativeCost _ _

theorem setCost (h : c.Sized) (v : ℕ) (cost : α) : (c.setCost v cost).Sized :=
  h.withTableau (h.hasShape_setCost v cost)

theorem hasShape_setRhs (h : c.Sized) (index : ℕ) (rhs : α) :
    (c.setRhs index rhs).tableau.HasShape c.nrRows c.nrColumns := by
  refine List.foldlRecOn (motive := fun t : Tableau α => t.HasShape c.nrRows c.nrColumns) _ _ h.tableau
    fun t ht p _ => ?_
  exact ht.setRhs _ _

theorem setRhs (h : c.Sized) (index : ℕ) (rhs : α) : (c.setRhs index rhs).Sized :=
  h.withTableau (h.hasShape_setRhs index rhs)

theorem hasShape_setCoefficient (h : c.Sized) (index v : ℕ) (value : α) :
    (c.setCoefficient index v value).tableau.HasShape c.nrRows c.nrColumns := by
  refine List.foldlRecOn (motive := fun t : Tableau α => t.HasShape c.nrRows c.nrColumns) _ _ h.tableau
    fun t ht p _ => ?_
  refine List.foldlRecOn (motive := fun t : Tableau α => t.HasShape c.nrRows c.nrColumns) _ _ ht fun t ht q _ => ?_
  exact ht.setEntry _ _ _

theorem setCoefficient (h : c.Sized) (index v : ℕ) (value : α) : (c.setCoefficient index v value).Sized :=
  h.withTableau (h.hasShape_setCoefficient index v value)

theorem hasShape_addVariable (h : c.Sized) (cost : α) (coefficients : List α) :
    (c.addVariable cost coefficients).tableau.HasShape c.nrRows (c.nrColumns + 1) :=
  h.tableau.addColumn (by rw [List.length_cons, List.length_map]; rfl)

theorem addVariable (h : c.Sized) (cost : α) (coefficients : List α) : (c.addVariable cost coefficients).Sized := by
  have hshape := h.hasShape_addVariable cost coefficients
  have hcolumns : (c.addVariable cost coefficients).nrColumns = c.nrColumns + 1 := hshape.nrColumns_eq
  refine ⟨?_, fun j hj => ?_, h.exists_source⟩
  · rw [hcolumns]
    exact hshape
  · rw [hcolumns]
    rw [CanonicalForm.addVariable, List.flatMap_append, List.mem_append] at hj
    rcases hj with hj | hj
    · exact (h.placement_lt j hj).trans (Nat.lt_succ_self _)
    · obtain rfl : j = c.nrColumns := by simpa [Placement.indices, Placement.columns] using hj
      exact Nat.lt_succ_self _

theorem nrRows_addConstraint (c : CanonicalForm α) (coefficients : List α) (relation : Relation) (rhs : α) :
    (c.addConstraint coefficients relation rhs).nrRows = c.nrRows + relation.halves.length := by
  rw [nrRows, CanonicalForm.addConstraint, List.length_append, List.length_map]
  rfl

theorem hasShape_addConstraint (h : c.Sized) (coefficients : List α) (relation : Relation) (rhs : α) :
    (c.addConstraint coefficients relation rhs).tableau.HasShape (c.nrRows + relation.halves.length)
      (c.nrColumns + relation.halves.length) :=
  h.tableau.addConstraint (Placement.length_spread ..).le relation rhs

theorem addConstraint (h : c.Sized) (coefficients : List α) (relation : Relation) (rhs : α) :
    (c.addConstraint coefficients relation rhs).Sized := by
  have hshape := h.hasShape_addConstraint coefficients relation rhs
  have hcolumns : (c.addConstraint coefficients relation rhs).nrColumns = c.nrColumns + relation.halves.length :=
    hshape.nrColumns_eq
  refine ⟨?_, fun j hj => ?_, fun index hindex => ?_⟩
  · rw [hcolumns, nrRows_addConstraint]
    exact hshape
  · rw [hcolumns]
    exact Nat.lt_add_right _ (h.placement_lt j hj)
  · rcases Nat.lt_succ_iff_lt_or_eq.mp hindex with hindex | rfl
    · obtain ⟨half, hhalf⟩ := h.exists_source index hindex
      exact ⟨half, List.mem_append_left _ hhalf⟩
    · obtain ⟨half, hhalf⟩ : ∃ half, half ∈ relation.halves := by
        cases relation <;> exact ⟨_, List.mem_cons_self ..⟩
      exact ⟨half, List.mem_append_right _ (List.mem_map_of_mem hhalf)⟩

end Sized

end CanonicalForm

end LinearProgramming
