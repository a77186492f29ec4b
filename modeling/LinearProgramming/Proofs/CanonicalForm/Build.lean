import LinearProgramming.Proofs.CanonicalForm.Represents

/-! # The canonical form of a model represents it

`CanonicalForm.ofModel` lays out its columns as one per variable, the negative parts of the free variables and the
slacks, and its rows as `CanonicalForm.modelRows` lists them. `represents_ofModel` checks this layout against
`CanonicalForm.Represents`. -/

namespace LinearProgramming

open Finset

/-! ### Columns of the variables -/

namespace Placement

variable {domains : List VariableDomain} {v w j : ℕ}

theorem getElem?_ofDomains (domains : List VariableDomain) (v : ℕ) :
    (ofDomains domains)[v]? = domains[v]?.map fun domain =>
      match domain with
      | .nonnegative | .integer | .binary => direct v
      | .nonpositive => negated v
      | .free => split v (domains.length + (domains.take v).count .free) := by
  unfold ofDomains
  cases hv : domains[v]? with
  | none => simp [hv]
  | some d => cases d <;> simp [hv]

@[simp] theorem length_ofDomains (domains : List VariableDomain) :
    (ofDomains domains).length = domains.length := by
  rw [ofDomains, List.length_mapIdx]

theorem fits_ofDomains (domains : List VariableDomain) : ∀ q ∈ (ofDomains domains).zip domains, q.1.Fits q.2 := by
  intro q hq
  obtain ⟨v, hv⟩ := List.mem_iff_getElem?.mp hq
  rw [List.getElem?_zip_eq_some, getElem?_ofDomains] at hv
  obtain ⟨hplace, hdom⟩ := hv
  rw [hdom, Option.map_some] at hplace
  rw [← Option.some.inj hplace]
  cases q.2 <;> simp [Fits]

/-- The columns of a variable: its own index, and for a free one the next column after all variables. -/
theorem indices_getElem (hv : v < (ofDomains domains).length) :
    j ∈ ((ofDomains domains)[v]).indices ↔
      j = v ∨ (domains[v]? = some .free ∧ j = domains.length + (domains.take v).count .free) := by
  have hv' : v < domains.length := by rwa [length_ofDomains] at hv
  have hget := getElem?_ofDomains domains v
  rw [List.getElem?_eq_getElem hv, List.getElem?_eq_getElem hv', Option.map_some] at hget
  rw [Option.some.inj hget, List.getElem?_eq_getElem hv']
  cases domains[v] <;> simp [indices, columns]

theorem count_take_lt (hvw : v < w) (hfree : domains[v]? = some .free) :
    (domains.take v).count .free < (domains.take w).count .free := by
  obtain ⟨hv, hget⟩ := List.getElem?_eq_some_iff.mp hfree
  have hsucc : (domains.take (v + 1)).count .free = (domains.take v).count .free + 1 := by
    rw [List.take_succ_eq_append_getElem hv, List.count_append, hget]
    simp
  have hle : (domains.take (v + 1)).count .free ≤ (domains.take w).count .free :=
    (List.take_sublist_take_left (by omega)).count_le _
  omega

theorem count_take_lt_count (hfree : domains[v]? = some .free) :
    (domains.take v).count .free < domains.count .free := by
  have hlt : v < domains.length := (List.getElem?_eq_some_iff.mp hfree).1
  have h := count_take_lt hlt hfree
  rwa [List.take_length] at h

theorem nodup_indices_ofDomains (domains : List VariableDomain) :
    ((ofDomains domains).flatMap indices).Nodup := by
  rw [List.nodup_flatMap]
  constructor
  · intro p hp
    obtain ⟨v, hv⟩ := List.mem_iff_getElem?.mp hp
    rw [getElem?_ofDomains, Option.map_eq_some_iff] at hv
    obtain ⟨d, hd, rfl⟩ := hv
    have hlt : v < domains.length := (List.getElem?_eq_some_iff.mp hd).1
    cases d <;> simp [indices, columns]
    omega
  · rw [List.pairwise_iff_getElem]
    intro v w hv hw hvw j hjv hjw
    rw [indices_getElem hv] at hjv
    rw [indices_getElem hw] at hjw
    rw [length_ofDomains] at hv hw
    rcases hjv with rfl | ⟨hfree, rfl⟩
    · rcases hjw with h | ⟨_, h⟩ <;> omega
    · rcases hjw with h | ⟨_, h⟩
      · omega
      · have := count_take_lt hvw hfree
        omega

theorem lt_of_mem_indices_ofDomains (hj : j ∈ (ofDomains domains).flatMap indices) :
    j < domains.length + domains.count .free := by
  obtain ⟨p, hp, hjp⟩ := List.mem_flatMap.mp hj
  obtain ⟨v, hv, rfl⟩ := List.mem_iff_getElem.mp hp
  rcases (indices_getElem hv).mp hjp with rfl | ⟨hfree, rfl⟩
  · rw [length_ofDomains] at hv
    omega
  · have := count_take_lt_count hfree
    omega

theorem length_indices_ofDomains (domains : List VariableDomain) :
    ((ofDomains domains).flatMap indices).length = domains.length + domains.count .free := by
  have hlen : ∀ (f : ℕ → VariableDomain → Placement) (ds : List VariableDomain),
      (∀ i d, (f i d).indices.length = if d = .free then 2 else 1) →
      ((ds.mapIdx f).flatMap indices).length = ds.length + ds.count .free := by
    intro f ds
    induction ds generalizing f with
    | nil => simp
    | cons d ds ih =>
      intro hf
      rw [List.mapIdx_cons, List.flatMap_cons, List.length_append, hf,
        ih (fun i => f (i + 1)) fun i => hf (i + 1), List.length_cons, List.count_cons]
      by_cases hd : d = .free
      · simp [hd]
        omega
      · simp [hd]
        omega
  exact hlen _ domains fun i d => by cases d <;> rfl

/-- The variables take the first columns, in some order. -/
theorem perm_indices_ofDomains (domains : List VariableDomain) :
    ((ofDomains domains).flatMap indices).Perm (List.range (domains.length + domains.count .free)) := by
  refine (List.subperm_of_subset (nodup_indices_ofDomains domains) fun j hj => ?_).perm_of_length_le ?_
  · exact List.mem_range.mpr (lt_of_mem_indices_ofDomains hj)
  · rw [List.length_range, length_indices_ofDomains]

end Placement

/-! ### Rows with a slack each -/

namespace Tableau

variable {width : ℕ} {cost : List ℚ} {rows : List (List ℚ × ℚ)} {i j k : ℕ}

/-- The tableau of rows over `width` columns, each with its right hand side, in which the slacks of the rows are
basic. -/
def ofSlackRows (width : ℕ) (cost : List ℚ) (rows : List (List ℚ × ℚ)) : Tableau ℚ :=
  ofMatrix
    (RowMatrix.ofRows ((cost ++ List.replicate (rows.length + 1) 0) ::
      rows.mapIdx fun i r => r.1 ++ RowMatrix.unitVector rows.length i ++ [r.2]))
    ((List.range rows.length).map (width + ·))

theorem nrRows_ofSlackRows (width : ℕ) (cost : List ℚ) (rows : List (List ℚ × ℚ)) :
    (ofSlackRows width cost rows).nrRows = rows.length := by
  simp [ofSlackRows, nrRows, ofMatrix, RowMatrix.ofRows, RowMatrix.nrRows]

theorem nrColumns_ofSlackRows (hcost : cost.length = width) :
    (ofSlackRows width cost rows).nrColumns = width + rows.length := by
  simp [ofSlackRows, nrColumns, ofMatrix, RowMatrix.ofRows, hcost]

theorem matrix_row_zero_ofSlackRows (width : ℕ) (cost : List ℚ) (rows : List (List ℚ × ℚ)) :
    (ofSlackRows width cost rows).matrix.row 0 = cost ++ List.replicate (rows.length + 1) 0 := rfl

theorem matrix_row_succ_ofSlackRows (hi : i < rows.length) :
    (ofSlackRows width cost rows).matrix.row (i + 1) =
      rows[i].1 ++ RowMatrix.unitVector rows.length i ++ [rows[i].2] := by
  simp [ofSlackRows, ofMatrix, RowMatrix.ofRows, RowMatrix.row, hi]

theorem relativeCost_ofSlackRows (hcost : cost.length = width) (hj : j < width) :
    (ofSlackRows width cost rows).relativeCost j = cost.getD j 0 := by
  rw [relativeCost, RowMatrix.entry, matrix_row_zero_ofSlackRows, List.getD_append _ _ _ _ (by omega)]

theorem matrix_entry_zero_ofSlackRows (hcost : cost.length = width) (hj : width ≤ j) :
    (ofSlackRows width cost rows).matrix.entry 0 j = 0 := by
  rw [RowMatrix.entry, matrix_row_zero_ofSlackRows, List.getD_append_right _ _ _ _ (by omega)]
  by_cases hlt : j - cost.length < rows.length + 1
  · rw [List.getD_replicate 0 hlt]
  · rw [List.getD_eq_default _ _ (by rw [List.length_replicate]; exact not_lt.mp hlt)]

section Entries

variable (hwidth : ∀ r ∈ rows, r.1.length = width) (hi : i < rows.length)
include hwidth hi

theorem entry_ofSlackRows (hj : j < width) : (ofSlackRows width cost rows).entry i j = (rows[i].1).getD j 0 := by
  have hlen := hwidth _ (List.getElem_mem hi)
  rw [entry, RowMatrix.entry, matrix_row_succ_ofSlackRows hi, List.append_assoc,
    List.getD_append _ _ _ _ (by omega)]

theorem entry_slack_ofSlackRows (hk : k < rows.length) :
    (ofSlackRows width cost rows).entry i (width + k) = if i = k then 1 else 0 := by
  have hlen := hwidth _ (List.getElem_mem hi)
  rw [entry, RowMatrix.entry, matrix_row_succ_ofSlackRows hi, List.append_assoc,
    List.getD_append_right _ _ _ _ (by omega), hlen, Nat.add_sub_cancel_left,
    List.getD_append _ _ _ _ (by rw [RowMatrix.length_unitVector]; exact hk),
    RowMatrix.getD_unitVector hi]
  simp only [eq_comm]

theorem rhs_ofSlackRows (hcost : cost.length = width) : (ofSlackRows width cost rows).rhs i = rows[i].2 := by
  have hlen := hwidth _ (List.getElem_mem hi)
  rw [rhs, nrColumns_ofSlackRows hcost, RowMatrix.entry, matrix_row_succ_ofSlackRows hi,
    List.getD_append_right _ _ _ _ (by simp [hlen, RowMatrix.length_unitVector])]
  simp [hlen, RowMatrix.length_unitVector]

end Entries

theorem getD_basis_ofSlackRows (hi : i < rows.length) :
    (ofSlackRows width cost rows).basis.getD i 0 = width + i := by
  simp [ofSlackRows, ofMatrix, hi]

theorem wellFormed_ofSlackRows (hcost : cost.length = width) (hwidth : ∀ r ∈ rows, r.1.length = width) :
    (ofSlackRows width cost rows).WellFormed := by
  have hcolumns : (ofSlackRows width cost rows).matrix.nrColumns = width + rows.length + 1 := by
    simp [ofSlackRows, ofMatrix, RowMatrix.ofRows, hcost, add_assoc]
  refine wellFormed_ofMatrix ?_ (Nat.succ_pos _) (Nat.lt_of_lt_of_eq (Nat.succ_pos _) hcolumns.symm) ?_ ?_ ?_
  · intro row hrow
    refine Eq.trans ?_ hcolumns.symm
    rcases List.mem_cons.mp hrow with rfl | hrow
    · simp [hcost, add_assoc]
    · obtain ⟨i, hi, rfl⟩ := List.mem_mapIdx.mp hrow
      simp [hwidth _ (List.getElem_mem hi), RowMatrix.length_unitVector, add_assoc]
  · simp [RowMatrix.ofRows, RowMatrix.nrRows]
  · exact List.nodup_range.map fun a b hab => Nat.add_left_cancel hab
  · intro j hj
    obtain ⟨i, hi, rfl⟩ := List.mem_map.mp hj
    rw [List.mem_range] at hi
    simp only [RowMatrix.ofRows, List.headD_cons, List.length_append, List.length_replicate, hcost]
    omega

theorem atBasis_ofSlackRows (hcost : cost.length = width) (hwidth : ∀ r ∈ rows, r.1.length = width) :
    (ofSlackRows width cost rows).AtBasis := by
  have hwf := wellFormed_ofSlackRows hcost hwidth
  refine ⟨hwf, hwf.basis_length, hwf.basis_lt, fun i hi k hk => ?_, fun i hi => ?_⟩
  · rw [nrRows_ofSlackRows] at hi hk
    rw [getD_basis_ofSlackRows hi, entry_slack_ofSlackRows hwidth hk hi]
  · rw [nrRows_ofSlackRows] at hi
    rw [getD_basis_ofSlackRows hi, relativeCost, matrix_entry_zero_ofSlackRows hcost (by omega)]

end Tableau

/-! ### The canonical form of a model -/

namespace CanonicalForm

variable {m : Model ℚ}

theorem mem_modelRows (m : Model ℚ) (row : RowSource × List ℚ × ℚ) :
    row ∈ modelRows m ↔ m.HasSource row.1 ∧ row.2 = (m.sourceCoefficients row.1, m.sourceRhs row.1) := by
  obtain ⟨source, coefficients, rhs⟩ := row
  simp only [modelRows, List.mem_append, List.mem_flatMap, List.mem_map, List.mem_filter, List.mem_range,
    Prod.exists, List.mem_zipIdx_iff_getElem?, Prod.mk.injEq, beq_iff_eq]
  constructor
  · rintro (⟨con, k, hcon, half, hhalf, rfl, rfl, rfl⟩ | ⟨v, ⟨hv, hbinary⟩, rfl, rfl, rfl⟩)
    · simp only [Model.HasSource, Model.sourceCoefficients, Model.sourceRhs, hcon, Option.map_some,
        Option.getD_some, and_true]
      exact ⟨con, rfl, hhalf⟩
    · rw [List.getD_eq_getElem _ _ hv] at hbinary
      exact ⟨List.getElem?_eq_some_iff.mpr ⟨hv, hbinary⟩, rfl, rfl⟩
  · rintro ⟨hsource, rfl, rfl⟩
    cases source with
    | constraint k half =>
      obtain ⟨con, hcon, hhalf⟩ := hsource
      refine Or.inl ⟨con, k, hcon, half, hhalf, rfl, ?_⟩
      simp [Model.sourceCoefficients, Model.sourceRhs, hcon]
    | binaryBound v =>
      obtain ⟨hv, hbinary⟩ := List.getElem?_eq_some_iff.mp hsource
      exact Or.inr ⟨v, ⟨hv, by rw [List.getD_eq_getElem _ _ hv, hbinary]⟩, rfl, rfl, rfl⟩

/-- Number of columns for the variables. -/
abbrev structuralWidth (m : Model ℚ) : ℕ := m.nrVariables + m.domains.count .free

/-- The rows of the canonical form over the columns of the variables. -/
def slackRows (m : Model ℚ) : List (List ℚ × ℚ) :=
  (modelRows m).map fun row =>
    ((Placement.spread (Placement.ofDomains m.domains) (structuralWidth m) row.2.1).map (row.1.sign * ·),
      row.1.sign * row.2.2)

/-- The cost row of the canonical form over the columns of the variables. -/
def slackCost (m : Model ℚ) : List ℚ :=
  (Placement.spread (Placement.ofDomains m.domains) (structuralWidth m) m.cost).map (-m.direction.sign * ·)

theorem length_slackRows (m : Model ℚ) : (slackRows m).length = (modelRows m).length := by
  rw [slackRows, List.length_map]

theorem tableau_ofModel (m : Model ℚ) :
    (ofModel m).tableau = Tableau.ofSlackRows (structuralWidth m) (slackCost m) (slackRows m) := by
  unfold ofModel Tableau.ofSlackRows
  simp only [length_slackRows]
  congr 3
  -- numbering the scaled rows is numbering the rows of the model
  rw [eq_comm, List.mapIdx_eq_iff]
  intro i
  rw [List.getElem?_mapIdx, slackRows, List.getElem?_map, Option.map_map]
  rfl

theorem length_slackCost (m : Model ℚ) : (slackCost m).length = structuralWidth m := by
  rw [slackCost, List.length_map, Placement.length_spread]

theorem length_of_mem_slackRows {r : List ℚ × ℚ} (hr : r ∈ slackRows m) : r.1.length = structuralWidth m := by
  obtain ⟨row, _, rfl⟩ := List.mem_map.mp hr
  rw [List.length_map, Placement.length_spread]

theorem getD_map_spread (hm : m.Valid) {data : List ℚ} (hlen : data.length = m.nrVariables) (σ : ℚ) :
    ∀ q ∈ data.zip (Placement.ofDomains m.domains), ∀ r ∈ (q.2.columns : List (ℕ × ℚ)),
      ((Placement.spread (Placement.ofDomains m.domains) (structuralWidth m) data).map (σ * ·)).getD r.1 0 =
        σ * (r.2 * q.1) := by
  intro q hq r hr
  have hlt : ∀ j ∈ (Placement.ofDomains m.domains).flatMap Placement.indices, j < structuralWidth m := by
    intro j hj
    have := Placement.lt_of_mem_indices_ofDomains hj
    rwa [hm.length_domains] at this
  have hspread := Placement.getD_spread (Placement.nodup_indices_ofDomains m.domains) hlt
    (by rw [hlen, Placement.length_ofDomains, hm.length_domains]) q hq r hr
  rw [← hspread, List.getD_eq_getElem?_getD, List.getElem?_map, List.getD_eq_getElem?_getD]
  cases (Placement.spread (Placement.ofDomains m.domains) (structuralWidth m) data)[r.1]? with
  | none => simp
  | some a => rfl

theorem column_lt (hm : m.Valid) {data : List ℚ} {q : ℚ × Placement}
    (hq : q ∈ data.zip (Placement.ofDomains m.domains)) {r : ℕ × ℚ} (hr : r ∈ (q.2.columns : List (ℕ × ℚ))) :
    r.1 < structuralWidth m := by
  have hmem : r.1 ∈ (Placement.ofDomains m.domains).flatMap Placement.indices :=
    List.mem_flatMap.mpr ⟨q.2, (List.of_mem_zip hq).2, List.mem_map_of_mem hr⟩
  have := Placement.lt_of_mem_indices_ofDomains hmem
  rwa [hm.length_domains] at this

theorem represents_ofModel (hm : m.Valid) : (ofModel m).Represents m := by
  have hwidth : ∀ r ∈ slackRows m, r.1.length = structuralWidth m := fun r => length_of_mem_slackRows
  have hcost := length_slackCost m
  have htab := tableau_ofModel m
  have hrow : ∀ i source, (ofModel m).rowSources[i]? = some source → ∃ hi : i < (slackRows m).length,
      m.HasSource source ∧ (slackRows m)[i] =
        ((Placement.spread (Placement.ofDomains m.domains) (structuralWidth m) (m.sourceCoefficients source)).map
          (source.sign * ·), source.sign * m.sourceRhs source) := by
    intro i source hsource
    have hsource' : ((modelRows m).map (·.1))[i]? = some source := hsource
    rw [List.getElem?_map, Option.map_eq_some_iff] at hsource'
    obtain ⟨row, hget, rfl⟩ := hsource'
    obtain ⟨hi, rfl⟩ := List.getElem?_eq_some_iff.mp hget
    obtain ⟨hhas, hdata⟩ := (mem_modelRows m _).mp (List.getElem_mem hi)
    refine ⟨by rw [length_slackRows]; exact hi, hhas, ?_⟩
    simp only [slackRows, List.getElem_map]
    rw [hdata]
  refine ⟨rfl, ?_, ?_, ?_, ?_, ?_, ?_, ?_, ?_, ?_, ?_, rfl⟩
  · rw [htab]
    exact Tableau.atBasis_ofSlackRows hcost hwidth
  · rw [htab, Tableau.objectiveValue, Tableau.nrColumns_ofSlackRows hcost]
    exact Tableau.matrix_entry_zero_ofSlackRows hcost (by omega)
  · exact (Placement.length_ofDomains _).trans hm.length_domains
  · exact Placement.fits_ofDomains m.domains
  · rw [nrColumns, htab, Tableau.nrColumns_ofSlackRows hcost, List.range_add]
    refine List.Perm.append ?_ (List.Perm.refl _)
    have hperm := Placement.perm_indices_ofDomains m.domains
    rwa [hm.length_domains] at hperm
  · intro q hq r hr
    rw [htab, Tableau.relativeCost_ofSlackRows hcost (column_lt hm hq hr)]
    exact getD_map_spread hm rfl _ q hq r hr
  · rw [htab, Tableau.nrRows_ofSlackRows, length_slackRows]
    exact List.length_map _
  · intro source
    constructor
    · intro hsource
      obtain ⟨i, hi⟩ := List.mem_iff_getElem?.mp hsource
      exact (hrow i source hi).2.1
    · intro hhas
      exact List.mem_map_of_mem (f := Prod.fst)
        ((mem_modelRows m (source, m.sourceCoefficients source, m.sourceRhs source)).mpr ⟨hhas, rfl⟩)
  · intro i source hsource q hq r hr
    obtain ⟨hi, hhas, hget⟩ := hrow i source hsource
    rw [htab, Tableau.entry_ofSlackRows hwidth hi (column_lt hm hq hr), hget]
    exact getD_map_spread hm (hm.length_sourceCoefficients hhas) _ q hq r hr
  · intro i source hsource
    obtain ⟨hi, _, hget⟩ := hrow i source hsource
    rw [htab, Tableau.rhs_ofSlackRows hwidth hi hcost, hget]

end CanonicalForm

end LinearProgramming
