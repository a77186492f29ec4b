import LinearProgramming.Proofs.CanonicalForm.Placement
import LinearProgramming.Proofs.Model.Meaning

/-! # Canonical forms that represent a model

`CanonicalForm.Represents` says how the tableau of a canonical form is made from a model: which columns stand for
which variables, and which rows for which inequalities. It is stated without an order of rows and columns, so that it
also describes forms to which variables and constraints were added. The nonnegative solutions of such a tableau are
the feasible assignments of the model with the slacks of the rows (`Represents.feasible_assignment` and
`Represents.exists_feasible`), and its objective function is that of the model, turned into a maximisation
(`Represents.objectiveAt_eq`). -/

namespace LinearProgramming

open Finset

/-! ### Rows of a model -/

namespace Model

/-- The model has an inequality of this source. -/
def HasSource (m : Model ℚ) : RowSource → Prop
  | .constraint k half => ∃ c, m.constraints[k]? = some c ∧ half ∈ c.relation.halves
  | .binaryBound v => m.domains[v]? = some .binary

def sourceCoefficients (m : Model ℚ) : RowSource → List ℚ
  | .constraint k _ => (m.constraints[k]?.map (·.coefficients)).getD []
  | .binaryBound v => RowMatrix.unitVector m.nrVariables v

def sourceRhs (m : Model ℚ) : RowSource → ℚ
  | .constraint k _ => (m.constraints[k]?.map (·.rhs)).getD 0
  | .binaryBound _ => 1

theorem Valid.length_sourceCoefficients {m : Model ℚ} (hm : m.Valid) {source : RowSource}
    (h : m.HasSource source) : (m.sourceCoefficients source).length = m.nrVariables := by
  cases source with
  | constraint k half =>
    obtain ⟨c, hc, _⟩ := h
    simp only [sourceCoefficients, hc, Option.map_some, Option.getD_some]
    exact hm.length_coefficients c (List.mem_of_getElem? hc)
  | binaryBound v => simp [sourceCoefficients, RowMatrix.unitVector]

end Model

theorem Scalar.dot_unitVector {n v : ℕ} (hv : v < n) {x : List ℚ} (hx : x.length = n) :
    Scalar.dot (RowMatrix.unitVector n v) x = x.getD v 0 := by
  rw [Scalar.dot_eq_sum_range _ _ n (by rw [RowMatrix.length_unitVector, hx, min_self])]
  simp only [RowMatrix.getD_unitVector hv, ite_mul, one_mul, zero_mul]
  rw [Finset.sum_ite_eq' (Finset.range n) v, if_pos (Finset.mem_range.mpr hv)]

/-! ### Representation -/

namespace CanonicalForm

variable {c : CanonicalForm ℚ} {m : Model ℚ} {x : ℕ → ℚ}

/-- Values of the variables, from values of the columns. -/
def assignment (c : CanonicalForm ℚ) (x : ℕ → ℚ) : List ℚ := c.placements.map (·.value x)

theorem modelValues_eq_assignment (c : CanonicalForm ℚ) (values : List ℚ) :
    c.modelValues values = c.assignment (Tableau.ofList values) :=
  List.map_congr_left fun p _ => p.read_eq_value values

theorem getD_canonicalCost (c : CanonicalForm ℚ) {j : ℕ} (hj : j < c.tableau.nrColumns) :
    c.canonicalCost.getD j 0 = -c.tableau.relativeCost j := by
  simp only [canonicalCost, Tableau.relativeCosts, Tableau.relativeCost, RowMatrix.entry, List.getD_eq_getElem?_getD,
    List.getElem?_map, List.getElem?_take_of_lt hj]
  cases (c.tableau.matrix.row 0)[j]? <;> simp

/-- The canonical form is that of the model, up to the order of its rows and columns. -/
structure Represents (c : CanonicalForm ℚ) (m : Model ℚ) : Prop where
  direction_eq : c.direction = m.direction
  atBasis : c.tableau.AtBasis
  objectiveValue_eq : c.tableau.objectiveValue = 0
  length_placements : c.placements.length = m.nrVariables
  fits : ∀ q ∈ c.placements.zip m.domains, q.1.Fits q.2
  columns_perm : (c.placements.flatMap Placement.indices ++ c.tableau.basis).Perm (List.range c.nrColumns)
  cost_eq : ∀ q ∈ m.cost.zip c.placements, ∀ r ∈ (q.2.columns : List (ℕ × ℚ)),
    c.tableau.relativeCost r.1 = -c.direction.sign * (r.2 * q.1)
  length_rowSources : c.rowSources.length = c.tableau.nrRows
  hasSource_iff : ∀ source, source ∈ c.rowSources ↔ m.HasSource source
  entry_eq : ∀ i source, c.rowSources[i]? = some source →
    ∀ q ∈ (m.sourceCoefficients source).zip c.placements, ∀ r ∈ (q.2.columns : List (ℕ × ℚ)),
      c.tableau.entry i r.1 = source.sign * (r.2 * q.1)
  rhs_eq : ∀ i source, c.rowSources[i]? = some source → c.tableau.rhs i = source.sign * m.sourceRhs source
  nrConstraints_eq : c.nrConstraints = m.nrConstraints

namespace Represents

theorem nodup_structural (h : c.Represents m) : (c.placements.flatMap Placement.indices).Nodup :=
  (List.nodup_append.mp (h.columns_perm.nodup_iff.mpr List.nodup_range)).1

theorem notMem_indices (h : c.Represents m) {v w j : ℕ} (hv : v < c.placements.length) (hw : w < c.placements.length)
    (hne : v ≠ w) (hj : j ∈ c.placements[v].indices) : j ∉ c.placements[w].indices := by
  have hpairwise := (List.nodup_flatMap.mp h.nodup_structural).2
  rw [List.pairwise_iff_getElem] at hpairwise
  rcases Nat.lt_or_gt_of_ne hne with hlt | hlt
  · exact fun hj' => hpairwise v w hv hw hlt hj hj'
  · exact fun hj' => hpairwise w v hw hv hlt hj' hj

theorem mem_others_iff (h : c.Represents m) {j : ℕ} :
    j ∈ c.tableau.others c.tableau.basis ↔ j ∈ c.placements.flatMap Placement.indices := by
  have hmem : j ∈ c.placements.flatMap Placement.indices ∨ j ∈ c.tableau.basis ↔ j < c.tableau.nrColumns := by
    rw [← List.mem_append, h.columns_perm.mem_iff, List.mem_range]
    rfl
  have hdisj := (List.nodup_append.mp (h.columns_perm.nodup_iff.mpr List.nodup_range)).2.2
  rw [Tableau.mem_others, ← hmem]
  constructor
  · intro hj
    exact hj.1.resolve_right hj.2
  · intro hj
    exact ⟨Or.inl hj, fun hbasis => hdisj j hj j hbasis rfl⟩

theorem sum_others (h : c.Represents m) (f : ℕ → ℚ) :
    ∑ j ∈ c.tableau.others c.tableau.basis, f j = ((c.placements.flatMap Placement.indices).map f).sum := by
  rw [← List.sum_toFinset f h.nodup_structural]
  refine Finset.sum_congr ?_ fun _ _ => rfl
  ext j
  rw [h.mem_others_iff, List.mem_toFinset]

theorem objectiveAt_eq (h : c.Represents m) (x : ℕ → ℚ) :
    c.tableau.objectiveAt x = m.direction.sign * m.objectiveValue (c.assignment x) := by
  rw [h.atBasis.unitAt.objectiveAt_eq, h.objectiveValue_eq, h.sum_others,
    Placement.sum_indices _ x _ c.placements m.cost h.length_placements.symm h.cost_eq, h.direction_eq]
  show 0 - -m.direction.sign * m.objectiveValue (c.assignment x) = _
  ring

theorem exists_source (h : c.Represents m) {i : ℕ} (hi : i < c.tableau.nrRows) :
    ∃ source, c.rowSources[i]? = some source ∧ m.HasSource source := by
  have hi' : i < c.rowSources.length := h.length_rowSources.symm ▸ hi
  exact ⟨_, List.getElem?_eq_getElem hi', (h.hasSource_iff _).mp (List.getElem_mem hi')⟩

theorem lt_nrRows (h : c.Represents m) {i : ℕ} {source : RowSource} (hsource : c.rowSources[i]? = some source) :
    i < c.tableau.nrRows := by
  rw [← h.length_rowSources]
  exact (List.getElem?_eq_some_iff.mp hsource).1

/-- The slack of a row is what the inequality of its source leaves. -/
theorem sum_row (h : c.Represents m) (hm : m.Valid) {i : ℕ} {source : RowSource}
    (hsource : c.rowSources[i]? = some source) (x : ℕ → ℚ) :
    ∑ j ∈ c.tableau.others c.tableau.basis, c.tableau.entry i j * x j =
      source.sign * Scalar.dot (m.sourceCoefficients source) (c.assignment x) := by
  have hhas : m.HasSource source := (h.hasSource_iff source).mp (List.mem_of_getElem? hsource)
  rw [h.sum_others, Placement.sum_indices _ x _ c.placements (m.sourceCoefficients source)
    ((hm.length_sourceCoefficients hhas).trans h.length_placements.symm) (h.entry_eq i source hsource)]
  rfl

theorem length_assignment (h : c.Represents m) (x : ℕ → ℚ) : (c.assignment x).length = m.nrVariables := by
  rw [assignment, List.length_map, h.length_placements]

theorem lt_nrColumns (h : c.Represents m) {j : ℕ} (hj : j ∈ c.placements.flatMap Placement.indices) :
    j < c.nrColumns :=
  (Tableau.mem_others.mp (h.mem_others_iff.mpr hj)).1

theorem fst_lt_nrColumns (h : c.Represents m) {data : List ℚ} {q : ℚ × Placement} (hq : q ∈ data.zip c.placements)
    {r : ℕ × ℚ} (hr : r ∈ (q.2.columns : List (ℕ × ℚ))) : r.1 < c.nrColumns :=
  h.lt_nrColumns (List.mem_flatMap.mpr ⟨q.2, (List.of_mem_zip hq).2, List.mem_map_of_mem hr⟩)

theorem assignment_congr (h : c.Represents m) {y : ℕ → ℚ} (hxy : ∀ j < c.nrColumns, x j = y j) :
    c.assignment x = c.assignment y := by
  refine List.map_congr_left fun p hp => Placement.value_congr fun j hj => hxy j (h.lt_nrColumns ?_)
  exact List.mem_flatMap.mpr ⟨p, hp, hj⟩

theorem sum_canonicalCoefficients (h : c.Represents m) {data : List ℚ} (hlen : data.length = m.nrVariables)
    {width : ℕ} (hwidth : c.nrColumns ≤ width) (x : ℕ → ℚ) :
    ∑ j ∈ range width, (c.canonicalCoefficients data).getD j 0 * x j = Scalar.dot data (c.assignment x) := by
  have hlen' : data.length = c.placements.length := hlen.trans h.length_placements.symm
  have hlt : ∀ j ∈ c.placements.flatMap Placement.indices, j < c.nrColumns := fun j hj => h.lt_nrColumns hj
  have hsub : (c.placements.flatMap Placement.indices).toFinset ⊆ range width := by
    intro j hj
    exact Finset.mem_range.mpr ((hlt j (List.mem_toFinset.mp hj)).trans_le hwidth)
  rw [← Finset.sum_subset hsub, List.sum_toFinset _ h.nodup_structural]
  · rw [Placement.sum_indices _ x 1 c.placements data hlen', one_mul]
    · rfl
    · intro q hq r hr
      rw [one_mul]
      exact Placement.getD_spread h.nodup_structural hlt hlen' q hq r hr
  · intro j _ hj
    rw [List.mem_toFinset] at hj
    rw [canonicalCoefficients, Placement.getD_spread_of_notMem h.nodup_structural hlt hlen' hj, zero_mul]

/-! ### Feasible assignments -/

/-- Feasibility in terms of the rows and placements of the canonical form. -/
theorem feasible_iff (h : c.Represents m) (hm : m.Valid) (y : List ℚ) :
    m.Feasible y ↔ y.length = m.nrVariables ∧
      (∀ source, m.HasSource source →
        source.sign * Scalar.dot (m.sourceCoefficients source) y ≤ source.sign * m.sourceRhs source) ∧
      ∀ q ∈ y.zip c.placements, q.2.Admits q.1 := by
  have hsign : ∀ v, ((RowSource.binaryBound v).sign : ℚ) = 1 := fun _ => rfl
  have hfits : ∀ v (hv : v < m.domains.length) (hp : v < c.placements.length),
      c.placements[v].Fits m.domains[v] := by
    intro v hv hp
    refine h.fits (c.placements[v], m.domains[v]) ?_
    exact List.mem_iff_getElem.mpr ⟨v, by rw [List.length_zip]; omega, List.getElem_zip ..⟩
  refine and_congr_right fun hlen => ?_
  rw [Model.isFeasible_iff (hlen.trans hm.length_domains.symm)]
  constructor
  · rintro ⟨hcons, hdom⟩
    refine ⟨fun source hsource => ?_, fun q hq => ?_⟩
    · cases source with
      | constraint k half =>
        obtain ⟨con, hcon, hhalf⟩ := hsource
        simp only [Model.sourceCoefficients, Model.sourceRhs, hcon, Option.map_some, Option.getD_some]
        exact hcons con (List.mem_of_getElem? hcon) half hhalf
      | binaryBound v =>
        obtain ⟨hv, hbin⟩ := List.getElem?_eq_some_iff.mp hsource
        have hp : v < c.placements.length := by rw [h.length_placements, ← hm.length_domains]; exact hv
        have hcontains := hdom v hv
        rw [List.getD_eq_getElem _ _ hv] at hcontains
        have hle := ((Placement.contains_iff (hfits v hv hp) _).mp hcontains).2 hbin
        rw [hsign, one_mul, one_mul, Model.sourceCoefficients,
          Scalar.dot_unitVector (hm.length_domains ▸ hv) hlen]
        exact hle
    · obtain ⟨v, hv, rfl⟩ := List.mem_iff_getElem.mp hq
      rw [List.length_zip] at hv
      have hp : v < c.placements.length := by omega
      have hy : v < y.length := by omega
      have hv' : v < m.domains.length := by rw [hm.length_domains, ← hlen]; exact hy
      have hcontains := hdom v hv'
      rw [List.getD_eq_getElem _ _ hv', List.getD_eq_getElem _ _ hy] at hcontains
      rw [List.getElem_zip]
      exact ((Placement.contains_iff (hfits v hv' hp) _).mp hcontains).1
  · rintro ⟨hrows, hadmits⟩
    refine ⟨fun con hcon half hhalf => ?_, fun v hv => ?_⟩
    · obtain ⟨k, hk⟩ := List.mem_iff_getElem?.mp hcon
      have hrow := hrows (.constraint k half) ⟨con, hk, hhalf⟩
      simp only [Model.sourceCoefficients, Model.sourceRhs, hk, Option.map_some, Option.getD_some] at hrow
      exact hrow
    · have hp : v < c.placements.length := by rw [h.length_placements, ← hm.length_domains]; exact hv
      have hy : v < y.length := by rw [hlen, ← hm.length_domains]; exact hv
      rw [List.getD_eq_getElem _ _ hv, Placement.contains_iff (hfits v hv hp)]
      refine ⟨?_, fun hbin => ?_⟩
      · rw [List.getD_eq_getElem _ _ hy]
        refine hadmits (y[v], c.placements[v]) ?_
        exact List.mem_iff_getElem.mpr ⟨v, by rw [List.length_zip]; omega, List.getElem_zip ..⟩
      · have hrow := hrows (.binaryBound v) (List.getElem?_eq_some_iff.mpr ⟨hv, hbin⟩)
        rw [hsign, one_mul, one_mul, Model.sourceCoefficients,
          Scalar.dot_unitVector (hm.length_domains ▸ hv) hlen] at hrow
        exact hrow

theorem feasible_assignment (h : c.Represents m) (hm : m.Valid) (hx : c.tableau.Feasible x) :
    m.Feasible (c.assignment x) := by
  rw [h.feasible_iff hm]
  refine ⟨h.length_assignment x, fun source hsource => ?_, fun q hq => ?_⟩
  · obtain ⟨i, hi⟩ := List.mem_iff_getElem?.mp ((h.hasSource_iff source).mpr hsource)
    have hlt : i < c.tableau.nrRows := h.lt_nrRows hi
    have hslack := (h.atBasis.unitAt.satisfies_iff x).mp hx.satisfies i hlt
    have hnonneg := hx.nonneg _ (h.atBasis.unitAt.getD_lt hlt)
    rw [h.sum_row hm hi, h.rhs_eq i source hi] at hslack
    linarith
  · obtain ⟨v, hv, rfl⟩ := List.mem_iff_getElem.mp hq
    rw [List.length_zip, assignment, List.length_map, min_self] at hv
    simp only [List.getElem_zip, assignment, List.getElem_map]
    refine Placement.admits_value fun j hj => hx.nonneg j ?_
    have hmem : j ∈ c.placements.flatMap Placement.indices :=
      List.mem_flatMap.mpr ⟨_, List.getElem_mem hv, hj⟩
    exact (Tableau.mem_others.mp (h.mem_others_iff.mpr hmem)).1

theorem exists_feasible (h : c.Represents m) (hm : m.Valid) {y : List ℚ} (hy : m.Feasible y) :
    ∃ x, c.tableau.Feasible x ∧ c.assignment x = y := by
  obtain ⟨hlen, hrows, hadmits⟩ := (h.feasible_iff hm y).mp hy
  obtain ⟨free, hfree, hnonneg⟩ := Placement.exists_value_eq c.placements y h.nodup_structural
    (hlen.trans h.length_placements.symm) hadmits
  have hunit := h.atBasis.unitAt
  -- the slacks complete the column values to a solution without changing those of the variables
  have hassign : c.assignment (c.tableau.completion c.tableau.basis free) = y := by
    rw [← hfree]
    refine List.map_congr_left fun p hp => Placement.value_congr fun j hj => ?_
    have hmem : j ∈ c.placements.flatMap Placement.indices := List.mem_flatMap.mpr ⟨p, hp, hj⟩
    exact Tableau.completion_of_notMem free (Tableau.mem_others.mp (h.mem_others_iff.mpr hmem)).2
  refine ⟨_, ⟨hunit.satisfies_completion free, fun j _ => ?_⟩, hassign⟩
  by_cases hmem : j ∈ c.tableau.basis
  · have hidx := hunit.idxOf_lt hmem
    obtain ⟨source, hsource, hhas⟩ := h.exists_source hidx
    have hslack := (hunit.satisfies_iff _).mp (hunit.satisfies_completion free) _ hidx
    rw [h.sum_row hm hsource, h.rhs_eq _ source hsource, hassign, Tableau.getD_idxOf hmem] at hslack
    linarith [hrows source hhas]
  · rw [Tableau.completion_of_notMem free hmem]
    exact hnonneg j

end Represents

end CanonicalForm

end LinearProgramming
