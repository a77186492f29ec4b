import LinearProgramming.Proofs.Integer.WellFormed

/-! # Cuts separate

A cut holds the fractional parts of a row. The entries of a unit basis are integers, so only columns that are zero in
the basic solution have a part in the cut, and the basic solution misses its right hand side
(`Tableau.AtBasis.cutValue_basicSolution`). A solution with integers in all columns of the row satisfies the cut, and
the surplus is an integer. Columns that are not marked can break this, so the row must have none of them. In the rounds
of the cutting plane method all columns are marked (`CanonicalForm.Cuts.rowMarked_solve`). -/

namespace LinearProgramming

open Finset

namespace Tableau

variable {t : Tableau ℚ} {mask : List Bool} {cut : Cut ℚ} {i : ℕ}

/-- All columns with an entry in the row are marked. -/
def RowMarked {α : Type} [Scalar α] (t : Tableau α) (mask : List Bool) (i : ℕ) : Prop :=
  ∀ j < t.nrColumns, t.entry i j ≠ 0 → mask.getD j false = true

/-- The left hand side of the cut at a vector of column values. -/
def cutValue (t : Tableau ℚ) (cut : Cut ℚ) (x : ℕ → ℚ) : ℚ :=
  ∑ j ∈ range t.nrColumns, cut.coefficients.getD j 0 * x j

/-- The cut takes the basic solution away, and no solution with integers in the marked columns. -/
structure Separates (t : Tableau ℚ) (mask : List Bool) (cut : Cut ℚ) : Prop where
  rhs_pos : 0 < cut.rhs
  rhs_lt_one : cut.rhs < 1
  length_coefficients : cut.coefficients.length = t.nrColumns
  coefficient_mem : ∀ a ∈ cut.coefficients, 0 ≤ a ∧ a < 1
  cutValue_basicSolution : t.cutValue cut (ofList t.basicSolution) = 0
  keeps : ∀ x, t.Feasible x → (∀ j < t.nrColumns, mask.getD j false = true → ∃ z : ℤ, x j = z) →
    cut.rhs ≤ t.cutValue cut x ∧ ∃ z : ℤ, t.cutValue cut x - cut.rhs = z

theorem WellFormed.cutValue_eq (h : t.WellFormed) (hi : i < t.nrRows) (x : ℕ → ℚ) :
    t.cutValue ⟨i, (t.row i).map Int.fract, Int.fract (t.rhs i)⟩ x =
      ∑ j ∈ range t.nrColumns, Int.fract (t.entry i j) * x j := by
  refine Finset.sum_congr rfl fun j hj => ?_
  rw [h.getD_map_fract_row hi (Finset.mem_range.mp hj)]

theorem AtBasis.cutValue_basicSolution (h : t.AtBasis) (hi : i < t.nrRows) :
    ∑ j ∈ range t.nrColumns, Int.fract (t.entry i j) * ofList t.basicSolution j = 0 := by
  refine Finset.sum_eq_zero fun j _ => ?_
  -- a basic column has integer entries, and any other is zero
  by_cases hj : j ∈ t.basis
  · have hfract : Int.fract (t.entry i j) = 0 := by
      rw [h.unitAt.entry_of_mem hj hi]
      split_ifs
      · exact Int.fract_one
      · exact Int.fract_zero
    rw [hfract, zero_mul]
  · rw [h.unitAt.basicSolution_of_notMem hj, mul_zero]

theorem AtBasis.separates (h : t.AtBasis) (hcut : t.cut? mask 0 = some cut) (hrow : t.RowMarked mask cut.sourceRow) :
    t.Separates mask cut := by
  obtain ⟨-, hlength⟩ := h.wellFormed.length_cut hcut
  obtain ⟨i, hi, -, hpos, rfl⟩ := cut?_eq_some hcut
  refine ⟨hpos, Int.fract_lt_one _, hlength, fun a ha => ?_, ?_, fun x hx hmarked => ?_⟩
  · obtain ⟨b, -, rfl⟩ := List.mem_map.mp ha
    exact ⟨Int.fract_nonneg b, Int.fract_lt_one b⟩
  · rw [h.wellFormed.cutValue_eq hi]
    exact h.cutValue_basicSolution hi
  · have hint : ∀ j < t.nrColumns, t.entry i j ≠ 0 → x j ∈ Scalar.integers :=
      fun j hj hentry => Scalar.mem_integers.mpr (hmarked j hj (hrow j hj hentry))
    rw [h.wellFormed.cutValue_eq hi]
    exact ⟨fract_rhs_le hi hint hx, Scalar.mem_integers.mp (surplus_mem hi hint hx.satisfies)⟩

end Tableau

/-! ### The rounds of the cutting plane method -/

namespace CanonicalForm

variable {α : Type} [Scalar α] {c : CanonicalForm α} {s s' : Session α} {mask : List Bool} {t : Tableau α}

theorem Cuts.eq_true_of_mem
    (hderived : c.integerColumns = deriveIntegerColumns c.tableau c.placements c.integerVariables)
    (h : c.Cuts s mask t s') : ∀ b ∈ mask, b = true := by
  induction h with
  | start hcolumns =>
    obtain ⟨hall, -⟩ := cutColumns_eq_ok hderived hcolumns
    rw [hall]
    exact fun b => List.eq_of_mem_replicate
  | next _ _ ih =>
    intro b hb
    rcases List.mem_append.mp hb with hold | hnew
    · exact ih b hold
    · exact List.mem_singleton.mp hnew

theorem Cuts.mask_eq (hc : c.Grown c.tableau)
    (hderived : c.integerColumns = deriveIntegerColumns c.tableau c.placements c.integerVariables)
    (h : c.Cuts s mask t s') : mask = List.replicate (t.solve s').tableau.nrColumns true := by
  rw [(t.passes_solve s').2.nrColumns_eq, ← (grown_of_cuts hc hderived h).2]
  exact List.eq_replicate_of_mem (h.eq_true_of_mem hderived)

theorem Cuts.rowMarked_solve {m : Model α} (h : (ofModel m).Cuts s mask t s') (i : ℕ) :
    (t.solve s').tableau.RowMarked mask i := by
  intro j hj _
  rw [h.mask_eq (grown_tableau_ofModel m) rfl, List.getD_replicate _ hj]

end CanonicalForm

/-- In exact arithmetic, with a unit basis and any marks, a cut from a row of marked columns separates the basic
solution from all solutions with integers in the marked columns. Without a cut, the marked basic columns have integer
values. The rows of the tableaus that the cutting plane method cuts have marked columns only. -/
theorem Tableau.separates_of_cut? {t : Tableau ℚ} (hwf : t.WellFormed) (hunit : t.hasUnitBasis 0 = true)
    (mask : List Bool) :
    (∀ cut, t.cut? mask 0 = some cut → t.RowMarked mask cut.sourceRow → t.Separates mask cut) ∧
    (t.cut? mask 0 = none → ∀ j ∈ t.basis, mask.getD j false = true → ∃ z : ℤ, ofList t.basicSolution j = z) ∧
    ∀ (m : Model ℚ) (s s' : Session ℚ) (columns : List Bool) (u : Tableau ℚ),
      (CanonicalForm.ofModel m).Cuts s columns u s' → ∀ i, (u.solve s').tableau.RowMarked columns i := by
  have hbasis : t.AtBasis := ⟨hwf, hwf.unitAt_of_hasUnitBasis hunit⟩
  exact ⟨fun cut => hbasis.separates,
    fun hnone j hj hmarked => Scalar.mem_integers.mp (hbasis.basicSolution_mem hnone hj hmarked),
    fun m s s' columns u hround => hround.rowMarked_solve⟩

/-- The second column need not be an integer. Its own row is passed over, and it is not in the row of the cut. -/
def mixedTableau : Tableau ℚ :=
  Tableau.ofMatrix (RowMatrix.ofRows
    [[0, 0, 1, 2, 4],
     [0, 1, 1 / 3, 0, 5 / 3],
     [1, 0, 1 / 2, -1 / 4, 7 / 2]]) [1, 0]

theorem Tableau.separates_of_cut?_mixedTableau :
    mixedTableau.WellFormed ∧ mixedTableau.hasUnitBasis 0 = true ∧
    mixedTableau.cut? [true, false, true, true] 0 = some ⟨1, [0, 0, 1 / 2, 3 / 4], 1 / 2⟩ ∧
    mixedTableau.RowMarked [true, false, true, true] 1 ∧
    mixedTableau.Separates [true, false, true, true] ⟨1, [0, 0, 1 / 2, 3 / 4], 1 / 2⟩ := by
  have hwf : mixedTableau.WellFormed :=
    wellFormed_ofMatrix (by simp [RowMatrix.IsRectangular, RowMatrix.ofRows]) (by decide) (by decide) (by decide)
      (by decide) (by decide)
  have hunit : mixedTableau.hasUnitBasis 0 = true := by decide +kernel
  have hcut : mixedTableau.cut? [true, false, true, true] 0 = some ⟨1, [0, 0, 1 / 2, 3 / 4], 1 / 2⟩ := by
    decide +kernel
  have hrow : mixedTableau.RowMarked [true, false, true, true] 1 := by
    unfold RowMarked
    decide +kernel
  exact ⟨hwf, hunit, hcut, hrow, (separates_of_cut? hwf hunit _).1 _ hcut hrow⟩

end LinearProgramming
