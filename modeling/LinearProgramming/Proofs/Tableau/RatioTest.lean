import LinearProgramming.Proofs.Scalar.Exact
import LinearProgramming.Tableau.Pivot

/-! # Ratio tests

A ratio test looks for the least ratio among the rows, or columns, whose entry has the right sign by more than the
tolerance. `ChoosesWithin` says how close its choice comes to that ratio. The first minimum is within the tolerance of
it (`ChoosesWithin.of_firstMinimum`). Where the tied rows are then compared by their basic columns, what counts as tied
adds the tolerance once more (`Tableau.choosesWithin_primalRowByLowestBasic?`). Nothing is assumed about the tableau. -/

namespace LinearProgramming

variable {ε : ℚ}

/-- The choice is an admitted index whose ratio exceeds no other by more than `δ`. There is no choice only if no index is
admitted. -/
def ChoosesWithin (admitted : ℕ → Prop) (ratio : ℕ → ℚ) (δ : ℚ) : Option ℕ → Prop
  | none => ∀ i, ¬admitted i
  | some k => admitted k ∧ ∀ i, admitted i → ratio k ≤ ratio i + δ

theorem ChoosesWithin.of_firstMinimum {admitted : ℕ → Prop} {ratio : ℕ → ℚ} {ratios : List (ℕ × ℚ)} (hε : 0 ≤ ε)
    (hratios : ∀ p, p ∈ ratios ↔ admitted p.1 ∧ p.2 = ratio p.1) :
    ChoosesWithin admitted ratio ε ((Scalar.firstMinimum ratios ε).map (·.1)) := by
  have hcandidate : ∀ i, admitted i → (i, ratio i) ∈ ratios := fun i hi => (hratios _).mpr ⟨hi, rfl⟩
  cases hminimum : Scalar.firstMinimum ratios ε with
  | none =>
    intro i hi
    exact List.ne_nil_of_mem (hcandidate i hi) ((Scalar.firstMinimum_eq_none_iff ratios ε).mp hminimum)
  | some least =>
    obtain ⟨hadmitted, hvalue⟩ := (hratios least).mp (Scalar.firstMinimum_mem hminimum)
    refine ⟨hadmitted, fun i hi => ?_⟩
    have hle := Scalar.firstMinimum_le hε hminimum _ (hcandidate i hi)
    rwa [hvalue] at hle

namespace Tableau

variable {t : Tableau ℚ} {i row column : ℕ} {p : ℕ × ℚ} {least : ℚ}

/-! ### Rows that leave -/

/-- How far the column can grow before the basic column of the row becomes zero. -/
def ratio (t : Tableau ℚ) (row column : ℕ) : ℚ := max (t.rhs row) 0 / t.entry row column

def MayLeave (t : Tableau ℚ) (ε : ℚ) (column row : ℕ) : Prop := row < t.nrRows ∧ ε < t.entry row column

theorem mem_primalRatios : p ∈ t.primalRatios column ε ↔ t.MayLeave ε column p.1 ∧ p.2 = t.ratio p.1 column := by
  simp only [primalRatios, List.mem_map, List.mem_filter, List.mem_range, Scalar.isPositive_iff, Scalar.maximum_eq]
  constructor
  · rintro ⟨i, hi, rfl⟩
    exact ⟨hi, rfl⟩
  · rintro ⟨hleave, hratio⟩
    exact ⟨p.1, hleave, Prod.ext rfl hratio.symm⟩

theorem choosesWithin_primalRow? (t : Tableau ℚ) (hε : 0 ≤ ε) (column : ℕ) :
    ChoosesWithin (t.MayLeave ε column) (t.ratio · column) ε (t.primalRow? column ε) :=
  .of_firstMinimum hε fun _ => mem_primalRatios

theorem leastBy_ne_none (key : ℕ → ℕ) {xs : List ℕ} (h : xs ≠ []) : leastBy key xs ≠ none := by
  cases xs with
  | nil => exact absurd rfl h
  | cons x rest =>
    rw [leastBy]
    split
    · simp
    · split_ifs <;> simp

theorem leastBy_mem_and_le (key : ℕ → ℕ) (xs : List ℕ) (h : leastBy key xs = some i) :
    i ∈ xs ∧ ∀ k ∈ xs, key i ≤ key k := by
  induction xs generalizing i with
  | nil => simp [leastBy] at h
  | cons x rest ih =>
    rw [leastBy] at h
    cases hrest : leastBy key rest with
    | none =>
      rw [hrest] at h
      have hx : x = i := Option.some.inj h
      have hnil : rest = [] := by
        by_contra hne
        exact leastBy_ne_none key hne hrest
      subst hx hnil
      exact ⟨List.mem_cons_self .., by simp⟩
    | some k =>
      obtain ⟨hmem, hle⟩ := ih hrest
      rw [hrest] at h
      simp only at h
      split_ifs at h with hlt
      · obtain rfl := Option.some.inj h
        refine ⟨List.mem_cons_of_mem x hmem, fun m hm => ?_⟩
        rcases List.mem_cons.mp hm with rfl | hm
        · exact hlt.le
        · exact hle m hm
      · obtain rfl := Option.some.inj h
        refine ⟨List.mem_cons_self .., fun m hm => ?_⟩
        rcases List.mem_cons.mp hm with rfl | hm
        · exact le_rfl
        · exact (not_lt.mp hlt).trans (hle m hm)

/-- The rows whose ratio is tied with a given one, up to the tolerance. -/
def tiedRows (t : Tableau ℚ) (column : ℕ) (ε least : ℚ) : List ℕ :=
  ((t.primalRatios column ε).filter fun p => p.2 ≤ least + ε).map (·.1)

theorem mem_tiedRows : i ∈ t.tiedRows column ε least ↔ t.MayLeave ε column i ∧ t.ratio i column ≤ least + ε := by
  simp only [tiedRows, List.mem_map, List.mem_filter, mem_primalRatios, decide_eq_true_eq]
  constructor
  · rintro ⟨p, ⟨⟨hleave, hratio⟩, htied⟩, rfl⟩
    exact ⟨hleave, hratio ▸ htied⟩
  · rintro ⟨hleave, htied⟩
    exact ⟨(i, t.ratio i column), ⟨⟨hleave, rfl⟩, htied⟩, rfl⟩

/-- All that the test by the lowest basic column can be. -/
theorem primalRowByLowestBasic?_cases (t : Tableau ℚ) (column : ℕ) (ε : ℚ) :
    (Scalar.firstMinimum (t.primalRatios column ε) ε = none ∧ t.primalRowByLowestBasic? column ε = none) ∨
    ∃ least, Scalar.firstMinimum (t.primalRatios column ε) ε = some least ∧
      t.primalRowByLowestBasic? column ε = leastBy (t.basis.getD · 0) (t.tiedRows column ε least.2) := by
  unfold primalRowByLowestBasic?
  simp only
  cases Scalar.firstMinimum (t.primalRatios column ε) ε with
  | none => exact Or.inl ⟨rfl, rfl⟩
  | some least => exact Or.inr ⟨least, rfl, rfl⟩

theorem choosesWithin_primalRowByLowestBasic? (t : Tableau ℚ) (hε : 0 ≤ ε) (column : ℕ) :
    ChoosesWithin (t.MayLeave ε column) (t.ratio · column) (2 * ε) (t.primalRowByLowestBasic? column ε) := by
  have hfirst := t.choosesWithin_primalRow? hε column
  unfold primalRow? at hfirst
  obtain ⟨hnone, hchoice⟩ | ⟨least, hsome, hchoice⟩ := t.primalRowByLowestBasic?_cases column ε
  · rw [hnone] at hfirst
    rw [hchoice]
    exact hfirst
  · rw [hsome] at hfirst
    obtain ⟨hleast, hle⟩ := hfirst
    have hvalue : least.2 = t.ratio least.1 column := (mem_primalRatios.mp (Scalar.firstMinimum_mem hsome)).2
    -- the minimum is tied with itself, so there is a row to choose
    have hself : least.1 ∈ t.tiedRows column ε least.2 := mem_tiedRows.mpr ⟨hleast, by linarith⟩
    rw [hchoice]
    cases hrow : leastBy (t.basis.getD · 0) (t.tiedRows column ε least.2) with
    | none => exact absurd hrow (leastBy_ne_none _ (List.ne_nil_of_mem hself))
    | some row =>
      obtain ⟨hleave, htied⟩ := mem_tiedRows.mp (leastBy_mem_and_le _ _ hrow).1
      refine ⟨hleave, fun i hi => ?_⟩
      have hbound := hle i hi
      linarith

/-- Of the rows whose ratio is not larger, the chosen one has the lowest basic column. -/
theorem basis_le_of_primalRowByLowestBasic? (h : t.primalRowByLowestBasic? column ε = some row)
    (hi : t.MayLeave ε column i) (hle : t.ratio i column ≤ t.ratio row column) :
    t.basis.getD row 0 ≤ t.basis.getD i 0 := by
  obtain ⟨-, hchoice⟩ | ⟨least, -, hchoice⟩ := t.primalRowByLowestBasic?_cases column ε
  · rw [hchoice] at h
    cases h
  · rw [hchoice] at h
    obtain ⟨hmem, hlowest⟩ := leastBy_mem_and_le _ _ h
    exact hlowest i (mem_tiedRows.mpr ⟨hi, hle.trans (mem_tiedRows.mp hmem).2⟩)

theorem choosesWithin_dualRow? (t : Tableau ℚ) (hε : 0 ≤ ε) :
    ChoosesWithin (fun i => i < t.nrRows ∧ t.rhs i < -ε) t.rhs ε (t.dualRow? ε) := by
  refine .of_firstMinimum hε fun p => ?_
  simp only [List.mem_filter, List.mem_map, List.mem_range, Scalar.isNegative_iff]
  constructor
  · rintro ⟨⟨i, hi, rfl⟩, hneg⟩
    exact ⟨⟨hi, hneg⟩, rfl⟩
  · rintro ⟨⟨hi, hneg⟩, hvalue⟩
    exact ⟨⟨p.1, hi, Prod.ext rfl hvalue.symm⟩, hvalue ▸ hneg⟩

/-! ### Columns that enter -/

/-- How much a dual pivot changes the objective value, for each unit of the right hand side of the row. -/
def dualRatio (t : Tableau ℚ) (row column : ℕ) : ℚ := |t.relativeCost column / t.entry row column|

def MayEnter (t : Tableau ℚ) (ε : ℚ) (row column : ℕ) : Prop :=
  column ∈ t.nonBasicColumns ∧ t.entry row column < -ε

theorem mem_dualRatios : p ∈ t.dualRatios row ε ↔ t.MayEnter ε row p.1 ∧ p.2 = t.dualRatio row p.1 := by
  simp only [dualRatios, List.mem_map, List.mem_filter, Scalar.isNegative_iff, Scalar.abs_eq]
  constructor
  · rintro ⟨j, hj, rfl⟩
    exact ⟨hj, rfl⟩
  · rintro ⟨henter, hratio⟩
    exact ⟨p.1, henter, Prod.ext rfl hratio.symm⟩

theorem choosesWithin_dualColumn? (t : Tableau ℚ) (hε : 0 ≤ ε) (row : ℕ) :
    ChoosesWithin (t.MayEnter ε row) (t.dualRatio row) ε (t.dualColumn? row ε) :=
  .of_firstMinimum hε fun _ => mem_dualRatios

/-! ### All tests -/

/-- The first minimum of any candidates is within the tolerance of the least value, and smaller than what is listed
before it. So the ratio tests find a row or a column whenever there is one to choose from, and its ratio is within the
tolerance of the least one, or within twice the tolerance where basic columns are compared. -/
theorem choosesWithin_ratioTests (t : Tableau ℚ) (hε : 0 ≤ ε) (row column : ℕ) :
    (∀ candidates : List (ℕ × ℚ), candidates ≠ [] →
      ∃ least, Scalar.firstMinimum candidates ε = some least ∧ Scalar.IsFirstMinimum candidates ε least) ∧
    ChoosesWithin (t.MayLeave ε column) (t.ratio · column) ε (t.primalRow? column ε) ∧
    ChoosesWithin (t.MayEnter ε row) (t.dualRatio row) ε (t.dualColumn? row ε) ∧
    ChoosesWithin (t.MayLeave ε column) (t.ratio · column) (2 * ε) (t.primalRowByLowestBasic? column ε) :=
  ⟨fun _ hne => Scalar.exists_firstMinimum hε hne, t.choosesWithin_primalRow? hε column,
    t.choosesWithin_dualColumn? hε row, t.choosesWithin_primalRowByLowestBasic? hε column⟩

/-- With tolerance one, the ratios `10`, `19/2`, `17/2`, `8` of the first column fall in small steps. -/
def driftingTableau : Tableau ℚ :=
  ofMatrix (RowMatrix.ofRows [[-1, 0, 0, 0, 0, 6, 3, 2, 0], [2, 0, 0, 0, 1, -2, -2, -2, 20], [2, 1, 0, 0, 0, 0, 0, 0, 19],
    [2, 0, 1, 0, 0, 0, 0, 0, 17], [2, 0, 0, 1, 0, 0, 0, 0, 16]]) [4, 1, 2, 3]

-- The last two ratios and the one of the second row are taken for tied, and the second row has the lowest basic column.
theorem choosesWithin_ratioTests_driftingTableau :
    (0 : ℚ) ≤ 1 ∧ driftingTableau.primalRatios 0 1 ≠ [] ∧
    Scalar.IsFirstMinimum (driftingTableau.primalRatios 0 1) 1 (2, 17 / 2) ∧
    (driftingTableau.primalRow? 0 1 = some 2 ∧
      ChoosesWithin (driftingTableau.MayLeave 1 0) (driftingTableau.ratio · 0) 1 (some 2)) ∧
    (driftingTableau.dualColumn? 0 1 = some 6 ∧
      ChoosesWithin (driftingTableau.MayEnter 1 0) (driftingTableau.dualRatio 0) 1 (some 6)) ∧
    driftingTableau.primalRowByLowestBasic? 0 1 = some 1 ∧
      ChoosesWithin (driftingTableau.MayLeave 1 0) (driftingTableau.ratio · 0) (2 * 1) (some 1) := by
  have hne : driftingTableau.primalRatios 0 1 ≠ [] := by decide +kernel
  have hfound : Scalar.firstMinimum (driftingTableau.primalRatios 0 1) 1 = some (2, 17 / 2) := by decide +kernel
  have hrow : driftingTableau.primalRow? 0 1 = some 2 := by decide +kernel
  have hcolumn : driftingTableau.dualColumn? 0 1 = some 6 := by decide +kernel
  have hlowest : driftingTableau.primalRowByLowestBasic? 0 1 = some 1 := by decide +kernel
  obtain ⟨hfirst, hprimal, hdual, hbasic⟩ := choosesWithin_ratioTests driftingTableau zero_le_one 0 0
  obtain ⟨least, hleast, hminimum⟩ := hfirst _ hne
  obtain rfl := Option.some.inj (hleast.symm.trans hfound)
  rw [hrow] at hprimal
  rw [hcolumn] at hdual
  rw [hlowest] at hbasic
  exact ⟨zero_le_one, hne, hminimum, ⟨hrow, hprimal⟩, ⟨hcolumn, hdual⟩, hlowest, hbasic⟩

end Tableau

end LinearProgramming
