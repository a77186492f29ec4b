import LinearProgramming.Proofs.Sensitivity.Change

/-! # The basis of an analyzed tableau

The columns that an analyzer inverts need not be those of its tableau: a unit vector may occur twice in the tableau, and
the first of its columns is taken. Columns that are the same unit vector in one tableau agree in all tableaus of the
problem, and so do their costs. The inverse and the prices of an analyzer are therefore those of the basis of its
tableau (`Analyzer.Tracks.inverts_ownBasis`, `Analyzer.Tracks.shadowPrices_ownBasis`). -/

namespace LinearProgramming

open Finset

variable {b : BasisInverse ℚ} {first t : Tableau ℚ} {columns : List ℕ} {cost : List ℚ} {a : Analyzer ℚ} {m : Model ℚ}
  {c : CanonicalForm ℚ} {i j l index : ℕ}

theorem Tableau.isOptimal_iff :
    t.isOptimal 0 = true ↔ (∀ i < t.nrRows, 0 ≤ t.rhs i) ∧ ∀ j < t.nrColumns, 0 ≤ t.relativeCost j := by
  simp [isOptimal, isPrimalFeasible, isDualFeasible, Scalar.isNegative, not_lt]

/-! ### Columns that are the same unit vectors -/

/-- The inverse with the columns of another basis. -/
def BasisInverse.withColumns (b : BasisInverse ℚ) (columns : List ℕ) : BasisInverse ℚ := ⟨columns, b.inverse⟩

namespace BasisInverse.Inverts

variable (h : b.Inverts first) (hwf : first.WellFormed)
  (hcost : ∀ j < first.nrColumns, cost.getD j 0 = -first.relativeCost j) (hzero : first.objectiveValue = 0)
  (heq : first.Equivalent t) (hunit : t.UnitAt b.columns) (hcolumns : t.UnitAt columns)
include h hwf hcost hzero heq hunit hcolumns

theorem entry_tableau_getD (hi : i < first.nrRows) (hl : l < first.nrRows) :
    (b.tableau first cost).entry i (columns.getD l 0) = if i = l then 1 else 0 := by
  have hrew := h.rewrites_tableau hwf hcost hzero
  rw [← heq.nrRows_eq] at hi hl
  rw [← hcolumns.entry l hl i hi]
  exact hunit.entry_eq (h.unitAt_tableau hwf) (heq.symm.trans hrew.equivalent) hi (hcolumns.getD_lt hl)

theorem withColumns : (b.withColumns columns).Inverts first := by
  refine ⟨hcolumns.length_eq.trans heq.nrRows_eq, fun j hj => ?_, h.regular, fun i hi l hl => ?_⟩
  · rw [← heq.nrColumns_eq]
    exact hcolumns.lt j hj
  · have hlt : columns.getD l 0 < first.nrColumns := by
      rw [← heq.nrRows_eq] at hl
      rw [← heq.nrColumns_eq]
      exact hcolumns.getD_lt hl
    rw [← h.entry_tableau_getD hwf hcost hzero heq hunit hcolumns hi hl, h.entry_tableau hwf hi hlt]
    rfl

/-- The relative cost of a basic column is zero in both bases. -/
theorem getD_cost_columns (hl : l < first.nrRows) :
    cost.getD (columns.getD l 0) 0 = cost.getD (b.columns.getD l 0) 0 := by
  have hl' : l < t.nrRows := heq.nrRows_eq ▸ hl
  have hlt : columns.getD l 0 < first.nrColumns := heq.nrColumns_eq ▸ hcolumns.getD_lt hl'
  have hrew := h.rewrites_tableau hwf hcost hzero
  have hrelative : (b.tableau first cost).relativeCost (columns.getD l 0) = 0 := by
    rw [← hcolumns.cost l hl']
    exact hunit.relativeCost_eq (h.unitAt_tableau hwf) (heq.symm.trans hrew.equivalent) (hcolumns.getD_lt hl')
  have hsum : ∑ k ∈ range first.nrRows, cost.getD (b.columns.getD k 0) 0 *
      (b.tableau first cost).entry k (columns.getD l 0) = cost.getD (b.columns.getD l 0) 0 := by
    rw [Finset.sum_eq_single_of_mem l (Finset.mem_range.mpr hl),
      h.entry_tableau_getD hwf hcost hzero heq hunit hcolumns hl hl, if_pos rfl, mul_one]
    intro k hk hkl
    rw [h.entry_tableau_getD hwf hcost hzero heq hunit hcolumns (Finset.mem_range.mp hk) hl, if_neg hkl, mul_zero]
  rw [h.relativeCost_tableau hwf hlt, hsum] at hrelative
  linarith

theorem shadowPrices_withColumns : (b.withColumns columns).shadowPrices cost = b.shadowPrices cost := by
  refine congrArg (RowMatrix.vecMul · b.inverse) ?_
  have hlen : columns.length = first.nrRows := hcolumns.length_eq.trans heq.nrRows_eq
  refine List.ext_getElem (by simp [basicCosts, BasisInverse.withColumns, hlen, h.length_eq]) fun l hl hl' => ?_
  have hl₁ : l < columns.length := by simpa [basicCosts, BasisInverse.withColumns] using hl
  have hl₂ : l < b.columns.length := by simpa [basicCosts] using hl'
  have hsame := h.getD_cost_columns hwf hcost hzero heq hunit hcolumns (hlen ▸ hl₁)
  rw [List.getD_eq_getElem _ _ hl₁, List.getD_eq_getElem _ _ hl₂] at hsame
  simpa [basicCosts, BasisInverse.withColumns] using hsame

end BasisInverse.Inverts

/-- The inverse that an analyzer keeps, with the columns of its tableau. -/
def Analyzer.ownBasis (a : Analyzer ℚ) : BasisInverse ℚ := a.basis.withColumns a.tableau.basis

namespace Analyzer.Tracks

variable (h : a.Tracks m)
include h

theorem inverts_ownBasis : a.ownBasis.Inverts a.canonical.tableau :=
  h.inverts.withColumns h.represents.atBasis.wellFormed (fun _ hj => a.canonical.getD_canonicalCost hj)
    h.represents.objectiveValue_eq h.rewrites.equivalent h.unitAt h.rewrites.atBasis.unitAt

theorem shadowPrices_ownBasis : a.ownBasis.shadowPrices a.canonical.canonicalCost = a.shadowPrices :=
  h.inverts.shadowPrices_withColumns h.represents.atBasis.wellFormed (fun _ hj => a.canonical.getD_canonicalCost hj)
    h.represents.objectiveValue_eq h.rewrites.equivalent h.unitAt h.rewrites.atBasis.unitAt

theorem tableau_ownBasis : a.ownBasis.tableau a.canonical.tableau a.canonical.canonicalCost = a.tableau :=
  h.inverts_ownBasis.tableau_eq_of_rewrites h.represents.atBasis.wellFormed
    (fun _ hj => a.canonical.getD_canonicalCost hj) h.represents.objectiveValue_eq h.rewrites rfl

end Analyzer.Tracks

/-! ### Rows of a constraint -/

theorem Relation.sign_mul_sign (r : Relation) (x : ℚ) : r.sign * (r.sign * x) = x := by
  cases r with
  | equal => exact (one_mul _).trans (one_mul x)
  | greater => exact (neg_one_mul _).trans (neg_eq_iff_eq_neg.mpr (neg_one_mul x))
  | less => exact (one_mul _).trans (one_mul x)

namespace CanonicalForm

/-- The factor of a row, if it is a row of the constraint. -/
def rowSign (c : CanonicalForm ℚ) (index i : ℕ) : ℚ :=
  match c.rowSources[i]? with
  | some (.constraint k half) => if k = index then half.sign else 0
  | _ => 0

theorem rowSign_of_source {half : Relation} (h : c.rowSources[i]? = some (.constraint index half)) :
    c.rowSign index i = half.sign := by
  simp [rowSign, h]

theorem rowSign_eq_zero (h : ∀ half, c.rowSources[i]? ≠ some (.constraint index half)) : c.rowSign index i = 0 := by
  unfold rowSign
  split
  · next k half hsource =>
    refine if_neg ?_
    rintro rfl
    exact h half hsource
  · rfl

theorem Represents.rowSign_cases (h : c.Represents m) {con : Constraint ℚ} (hcon : m.constraints[index]? = some con)
    (i : ℕ) :
    c.rowSign index i = 0 ∨ ∃ half ∈ con.relation.halves,
      c.rowSources[i]? = some (.constraint index half) ∧ c.rowSign index i = half.sign := by
  by_cases hsource : ∃ half, c.rowSources[i]? = some (.constraint index half)
  · obtain ⟨half, hsource⟩ := hsource
    obtain ⟨con', hcon', hhalf⟩ := (h.hasSource_iff _).mp (List.mem_of_getElem? hsource)
    obtain rfl := Option.some.inj (hcon'.symm.trans hcon)
    exact Or.inr ⟨half, hhalf, hsource, rowSign_of_source hsource⟩
  · exact Or.inl (rowSign_eq_zero fun half hhalf => hsource ⟨half, hhalf⟩)

theorem sum_map_filterMap {α β : Type} (f : α → Option β) (g : β → ℚ) (xs : List α) :
    ((xs.filterMap f).map g).sum = (xs.map fun x => ((f x).map g).getD 0).sum := by
  induction xs with
  | nil => rfl
  | cons x xs ih =>
    cases hx : f x with
    | none => simp [hx, ih]
    | some y => simp [hx, ih]

theorem sum_constraintRows (c : CanonicalForm ℚ) (index : ℕ) (f : ℕ → ℚ) :
    ((c.constraintRows index).map fun p => p.2 * f p.1).sum =
      ∑ i ∈ range c.rowSources.length, c.rowSign index i * f i := by
  rw [constraintRows, sum_map_filterMap, Scalar.sum_eq_sum_range _ c.rowSources.length (by simp)]
  refine Finset.sum_congr rfl fun i hi => ?_
  have hi' : i < c.rowSources.length := Finset.mem_range.mp hi
  rw [List.getD_eq_getElem _ _ (by simpa using hi'), List.getElem_map, List.getElem_zipIdx, rowSign,
    List.getElem?_eq_getElem hi', Nat.zero_add]
  cases c.rowSources[i] with
  | binaryBound v => exact (zero_mul _).symm
  | constraint k half =>
    by_cases hk : k = index
    · simp [hk]
    · simp [hk]

theorem Represents.combinedPrice_eq (h : c.Represents m) (prices : List ℚ) (index : ℕ) :
    Analyzer.combinedPrice prices (c.constraintRows index) =
      ∑ i ∈ range c.tableau.nrRows, c.rowSign index i * prices.getD i 0 := by
  rw [← h.length_rowSources, ← c.sum_constraintRows index (prices.getD · 0)]
  exact Scalar.sum_eq _

end CanonicalForm

end LinearProgramming
