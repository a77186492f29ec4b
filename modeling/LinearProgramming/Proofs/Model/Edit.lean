import LinearProgramming.Proofs.CanonicalForm.Represents

/-! # Edited models

The changes of a model that an analyzer can make, and what they do to the inequalities of the model. -/

namespace LinearProgramming.Model

variable {m : Model ℚ} {source : RowSource}

def setCost (m : Model ℚ) (variableIndex : ℕ) (cost : ℚ) : Model ℚ :=
  { m with cost := m.cost.set variableIndex cost }

def setRhs (m : Model ℚ) (index : ℕ) (rhs : ℚ) : Model ℚ :=
  { m with constraints := m.constraints.modify index fun c => { c with rhs } }

def setCoefficient (m : Model ℚ) (index variableIndex : ℕ) (value : ℚ) : Model ℚ :=
  { m with
    constraints := m.constraints.modify index fun c =>
      { c with coefficients := c.coefficients.set variableIndex value } }

def addVariable (m : Model ℚ) (cost : ℚ) (coefficients : List ℚ) : Model ℚ :=
  { m with
    cost := m.cost ++ [cost]
    domains := m.domains ++ [.nonnegative]
    constraints := List.zipWith (fun c v => { c with coefficients := c.coefficients ++ [v] }) m.constraints coefficients }

def addConstraint (m : Model ℚ) (coefficients : List ℚ) (relation : Relation) (rhs : ℚ) : Model ℚ :=
  { m with constraints := m.constraints ++ [⟨coefficients, relation, rhs⟩] }

/-! ### Lengths -/

theorem Valid.setCost (hm : m.Valid) (v : ℕ) (cost : ℚ) : (m.setCost v cost).Valid := by
  have hlen : (m.setCost v cost).nrVariables = m.nrVariables := List.length_set
  refine ⟨?_, ?_, fun c hc => ?_⟩
  · rw [hlen]
    exact hm.nrVariables_pos
  · rw [hlen]
    exact hm.length_domains
  · rw [hlen]
    exact hm.length_coefficients c hc

theorem Valid.setRhs (hm : m.Valid) (index : ℕ) (rhs : ℚ) : (m.setRhs index rhs).Valid := by
  refine ⟨hm.nrVariables_pos, hm.length_domains, fun c hc => ?_⟩
  obtain ⟨k, hk⟩ := List.mem_iff_getElem?.mp hc
  simp only [Model.setRhs, List.getElem?_modify] at hk
  cases hget : m.constraints[k]? with
  | none => simp [hget] at hk
  | some old =>
    have hold := hm.length_coefficients old (List.mem_of_getElem? hget)
    simp only [hget, Option.map_eq_map, Option.map_some, Option.some.injEq] at hk
    rw [← hk]
    split_ifs
    · exact hold
    · exact hold

theorem getElem?_setCoefficient (m : Model ℚ) (index v : ℕ) (value : ℚ) (k : ℕ) :
    (m.setCoefficient index v value).constraints[k]? = m.constraints[k]?.map fun c =>
      if index = k then { c with coefficients := c.coefficients.set v value } else c := by
  simp only [setCoefficient, List.getElem?_modify]
  rfl

theorem Valid.setCoefficient (hm : m.Valid) (index v : ℕ) (value : ℚ) : (m.setCoefficient index v value).Valid := by
  refine ⟨hm.nrVariables_pos, hm.length_domains, fun c hc => ?_⟩
  obtain ⟨k, hk⟩ := List.mem_iff_getElem?.mp hc
  rw [getElem?_setCoefficient, Option.map_eq_some_iff] at hk
  obtain ⟨old, hold, rfl⟩ := hk
  have hlen := hm.length_coefficients old (List.mem_of_getElem? hold)
  split_ifs
  · exact List.length_set.trans hlen
  · exact hlen

theorem Valid.addVariable (hm : m.Valid) (cost : ℚ) (coefficients : List ℚ) :
    (m.addVariable cost coefficients).Valid := by
  have hlen : (m.addVariable cost coefficients).nrVariables = m.nrVariables + 1 := by
    simp [Model.addVariable, nrVariables]
  refine ⟨by omega, ?_, fun c hc => ?_⟩
  · rw [hlen, ← hm.length_domains]
    simp [Model.addVariable]
  · rw [hlen]
    obtain ⟨k, hk, rfl⟩ := List.mem_iff_getElem.mp hc
    simp only [Model.addVariable, List.getElem_zipWith, List.length_append, List.length_singleton]
    rw [hm.length_coefficients _ (List.getElem_mem _)]

theorem Valid.addConstraint (hm : m.Valid) {coefficients : List ℚ} (hlen : coefficients.length = m.nrVariables)
    (relation : Relation) (rhs : ℚ) : (m.addConstraint coefficients relation rhs).Valid := by
  refine ⟨hm.nrVariables_pos, hm.length_domains, fun c hc => ?_⟩
  rcases List.mem_append.mp hc with hc | hc
  · exact hm.length_coefficients c hc
  · rw [List.mem_singleton.mp hc]
    exact hlen

/-! ### Inequalities -/

theorem sourceCoefficients_setCost (v : ℕ) (cost : ℚ) :
    (m.setCost v cost).sourceCoefficients source = m.sourceCoefficients source := by
  cases source with
  | constraint k half => rfl
  | binaryBound w =>
    have hlen : (m.setCost v cost).nrVariables = m.nrVariables := List.length_set
    simp only [sourceCoefficients, hlen]

theorem getElem?_setRhs (m : Model ℚ) (index : ℕ) (rhs : ℚ) (k : ℕ) :
    (m.setRhs index rhs).constraints[k]? = m.constraints[k]?.map fun c => if index = k then { c with rhs } else c := by
  simp only [setRhs, List.getElem?_modify]
  rfl

theorem hasSource_setRhs (index : ℕ) (rhs : ℚ) : (m.setRhs index rhs).HasSource source ↔ m.HasSource source := by
  cases source with
  | binaryBound v => exact Iff.rfl
  | constraint k half =>
    simp only [HasSource, getElem?_setRhs]
    cases m.constraints[k]? with
    | none => simp
    | some c => by_cases hk : index = k <;> simp [hk]

theorem sourceCoefficients_setRhs (index : ℕ) (rhs : ℚ) :
    (m.setRhs index rhs).sourceCoefficients source = m.sourceCoefficients source := by
  cases source with
  | binaryBound v => rfl
  | constraint k half =>
    simp only [sourceCoefficients, getElem?_setRhs]
    cases m.constraints[k]? with
    | none => rfl
    | some c => by_cases hk : index = k <;> simp [hk]

theorem sourceRhs_setRhs_of_ne {index : ℕ} (hne : ∀ half, source ≠ .constraint index half) (rhs : ℚ) :
    (m.setRhs index rhs).sourceRhs source = m.sourceRhs source := by
  cases source with
  | binaryBound v => rfl
  | constraint k half =>
    have hk : index ≠ k := fun hk => hne half (by rw [hk])
    simp only [sourceRhs, getElem?_setRhs, if_neg hk, Option.map_id_fun', id]

theorem sourceRhs_setRhs_self {index : ℕ} {half : Relation} (h : m.HasSource (.constraint index half)) (rhs : ℚ) :
    (m.setRhs index rhs).sourceRhs (.constraint index half) = rhs := by
  obtain ⟨c, hc, -⟩ := h
  simp [sourceRhs, getElem?_setRhs, hc]

section SetCoefficient

variable {index : ℕ} (v : ℕ) (value : ℚ)

theorem hasSource_setCoefficient : (m.setCoefficient index v value).HasSource source ↔ m.HasSource source := by
  cases source with
  | binaryBound w => exact Iff.rfl
  | constraint k half =>
    simp only [HasSource, getElem?_setCoefficient]
    cases m.constraints[k]? with
    | none => simp
    | some c => by_cases hk : index = k <;> simp [hk]

theorem sourceRhs_setCoefficient : (m.setCoefficient index v value).sourceRhs source = m.sourceRhs source := by
  cases source with
  | binaryBound w => rfl
  | constraint k half =>
    simp only [sourceRhs, getElem?_setCoefficient]
    cases m.constraints[k]? with
    | none => rfl
    | some c => by_cases hk : index = k <;> simp [hk]

theorem sourceCoefficients_setCoefficient_of_ne (hne : ∀ half, source ≠ .constraint index half) :
    (m.setCoefficient index v value).sourceCoefficients source = m.sourceCoefficients source := by
  cases source with
  | binaryBound w => rfl
  | constraint k half =>
    have hk : index ≠ k := fun hk => hne half (by rw [hk])
    simp only [sourceCoefficients, getElem?_setCoefficient, if_neg hk, Option.map_id_fun', id]

theorem sourceCoefficients_setCoefficient_self {half : Relation} (h : m.HasSource (.constraint index half)) :
    (m.setCoefficient index v value).sourceCoefficients (.constraint index half) =
      (m.sourceCoefficients (.constraint index half)).set v value := by
  obtain ⟨c, hc, -⟩ := h
  simp [sourceCoefficients, getElem?_setCoefficient, hc]

end SetCoefficient

section AddVariable

variable {coefficients : List ℚ} (hlen : coefficients.length = m.nrConstraints) (cost : ℚ)
include hlen

theorem getElem?_addVariable (k : ℕ) :
    (m.addVariable cost coefficients).constraints[k]? =
      m.constraints[k]?.map fun c => { c with coefficients := c.coefficients ++ [coefficients.getD k 0] } := by
  have hlen' : coefficients.length = m.constraints.length := hlen
  simp only [addVariable, List.getElem?_zipWith, List.getD_eq_getElem?_getD]
  by_cases hk : k < m.constraints.length
  · rw [List.getElem?_eq_getElem hk, List.getElem?_eq_getElem (hlen' ▸ hk)]
    rfl
  · rw [List.getElem?_eq_none (not_lt.mp hk)]
    rfl

theorem hasSource_addVariable : (m.addVariable cost coefficients).HasSource source ↔ m.HasSource source := by
  cases source with
  | constraint k half =>
    simp only [HasSource, getElem?_addVariable hlen]
    cases m.constraints[k]? <;> simp
  | binaryBound v =>
    simp only [HasSource, addVariable, List.getElem?_append]
    split_ifs with hv
    · rfl
    · rw [List.getElem?_eq_none (not_lt.mp hv)]
      cases v - m.domains.length <;> simp

/-- The coefficient of a new variable in the inequality of a source. -/
def newCoefficient (coefficients : List ℚ) : RowSource → ℚ
  | .constraint k _ => coefficients.getD k 0
  | .binaryBound _ => 0

theorem sourceCoefficients_addVariable (hm : m.Valid) (h : m.HasSource source) :
    (m.addVariable cost coefficients).sourceCoefficients source =
      m.sourceCoefficients source ++ [newCoefficient coefficients source] := by
  cases source with
  | constraint k half =>
    obtain ⟨c, hc, -⟩ := h
    simp [sourceCoefficients, getElem?_addVariable hlen, hc, newCoefficient]
  | binaryBound v =>
    have hv : v < m.nrVariables := by
      rw [← hm.length_domains]
      exact (List.getElem?_eq_some_iff.mp h).1
    have hvars : (m.addVariable cost coefficients).nrVariables = m.nrVariables + 1 := by
      simp [addVariable, nrVariables]
    simp only [sourceCoefficients, newCoefficient, hvars, RowMatrix.unitVector]
    rw [List.replicate_succ', List.set_append_left _ _ (by simpa using hv)]

theorem sourceRhs_addVariable :
    (m.addVariable cost coefficients).sourceRhs source = m.sourceRhs source := by
  cases source with
  | binaryBound v => rfl
  | constraint k half =>
    simp only [sourceRhs, getElem?_addVariable hlen]
    cases m.constraints[k]? <;> rfl

end AddVariable

section AddConstraint

variable (coefficients : List ℚ) (relation : Relation) (rhs : ℚ)

theorem getElem?_addConstraint_of_lt {k : ℕ} (hk : k < m.nrConstraints) :
    (m.addConstraint coefficients relation rhs).constraints[k]? = m.constraints[k]? :=
  List.getElem?_append_left hk

theorem getElem?_addConstraint_self :
    (m.addConstraint coefficients relation rhs).constraints[m.nrConstraints]? = some ⟨coefficients, relation, rhs⟩ :=
  List.getElem?_concat_length

theorem HasSource.lt {k : ℕ} {half : Relation} (h : m.HasSource (.constraint k half)) : k < m.nrConstraints := by
  obtain ⟨c, hc, -⟩ := h
  exact (List.getElem?_eq_some_iff.mp hc).1

theorem hasSource_addConstraint_iff :
    (m.addConstraint coefficients relation rhs).HasSource source ↔
      m.HasSource source ∨ ∃ half ∈ relation.halves, source = .constraint m.nrConstraints half := by
  cases source with
  | binaryBound v => simp [HasSource, addConstraint]
  | constraint k half =>
    rcases lt_trichotomy k m.nrConstraints with hk | rfl | hk
    · simp only [HasSource, getElem?_addConstraint_of_lt coefficients relation rhs hk, RowSource.constraint.injEq]
      simp only [hk.ne, false_and, and_false, exists_false, or_false]
    · have hold : ¬m.HasSource (.constraint m.nrConstraints half) := fun h => absurd h.lt (lt_irrefl _)
      simp only [hold, false_or]
      simp [HasSource, getElem?_addConstraint_self]
    · have hnone : (m.addConstraint coefficients relation rhs).constraints[k]? = none :=
        List.getElem?_eq_none (by
          simp only [addConstraint, List.length_append, List.length_singleton]
          exact hk)
      have hold : ¬m.HasSource (.constraint k half) := fun h => absurd h.lt (by omega)
      simp only [hold, false_or]
      simp [HasSource, hnone, hk.ne']

theorem sourceCoefficients_addConstraint (h : m.HasSource source) :
    (m.addConstraint coefficients relation rhs).sourceCoefficients source = m.sourceCoefficients source := by
  cases source with
  | binaryBound v => rfl
  | constraint k half => simp only [sourceCoefficients, getElem?_addConstraint_of_lt coefficients relation rhs h.lt]

theorem sourceRhs_addConstraint (h : m.HasSource source) :
    (m.addConstraint coefficients relation rhs).sourceRhs source = m.sourceRhs source := by
  cases source with
  | binaryBound v => rfl
  | constraint k half => simp only [sourceRhs, getElem?_addConstraint_of_lt coefficients relation rhs h.lt]

end AddConstraint

end LinearProgramming.Model
