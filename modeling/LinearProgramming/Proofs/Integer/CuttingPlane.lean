import LinearProgramming.Integer.CuttingPlane
import LinearProgramming.Proofs.CanonicalForm.IntegerColumns
import LinearProgramming.Proofs.Integer.Subproblem

/-! # Correctness of cutting planes

A cut compares the fractional parts of a row. Where all columns of the row have integer values, the surplus of the cut
is an integer and not negative (`Tableau.surplus_mem`, `Tableau.fract_rhs_le`), so no such solution is lost, and the
column of the surplus has an integer value in turn. This carries the invariant `CanonicalForm.CutSound` from one cut to
the next: the tableau is a subproblem of the model, and holds every integer assignment with integers in all columns.
What is reported after any number of cuts is then correct (`CutReport.Correct`). -/

namespace LinearProgramming

open Finset

namespace Tableau

variable {t : Tableau ℚ} {mask : List Bool} {cut : Cut ℚ} {x : ℕ → ℚ} {i j : ℕ}

/-! ### Cuts of a row -/

theorem cut?_eq_some (h : t.cut? mask 0 = some cut) :
    ∃ i < t.nrRows, mask.getD (t.basis.getD i 0) false = true ∧ 0 < Int.fract (t.rhs i) ∧
      cut = ⟨i, (t.row i).map Int.fract, Int.fract (t.rhs i)⟩ := by
  obtain ⟨i, hfind, rfl⟩ := Option.map_eq_some_iff.mp h
  have hrow := List.find?_some hfind
  simp only [Bool.and_eq_true, Scalar.isPositive_iff, Scalar.fractionalPart_zero] at hrow
  refine ⟨i, List.mem_range.mp (List.mem_of_find?_eq_some hfind), hrow.1, hrow.2, ?_⟩
  simp only [Scalar.fractionalPart_zero]

theorem rhs_mem_of_cut?_eq_none (h : t.cut? mask 0 = none) (hi : i < t.nrRows)
    (hmarked : mask.getD (t.basis.getD i 0) false = true) : t.rhs i ∈ Scalar.integers := by
  rw [cut?, Option.map_eq_none_iff, List.find?_eq_none] at h
  have hrow := h i (List.mem_range.mpr hi)
  simp only [hmarked, Bool.true_and, Scalar.isPositive_iff, Scalar.fractionalPart_zero, not_lt] at hrow
  exact Scalar.mem_integers_of_fract_nonpos hrow

theorem AtBasis.basicSolution_mem (h : t.AtBasis) (hnone : t.cut? mask 0 = none) (hj : j ∈ t.basis)
    (hmarked : mask.getD j false = true) : ofList t.basicSolution j ∈ Scalar.integers := by
  obtain ⟨i, hi, rfl⟩ := h.unitAt.exists_row hj
  rw [h.unitAt.basicSolution_getD hi]
  exact rhs_mem_of_cut?_eq_none hnone hi hmarked

theorem WellFormed.getD_map_fract_row (h : t.WellFormed) (hi : i < t.nrRows) (hj : j < t.nrColumns) :
    ((t.row i).map Int.fract).getD j 0 = Int.fract (t.entry i j) := by
  rw [List.getD_eq_getElem?_getD, List.getElem?_map, h.getElem?_row hi hj]
  rfl

section Row

variable (hi : i < t.nrRows) (hint : ∀ j < t.nrColumns, t.entry i j ≠ 0 → x j ∈ Scalar.integers)
include hi hint

theorem surplus_mem (hx : t.Satisfies x) :
    ∑ j ∈ range t.nrColumns, Int.fract (t.entry i j) * x j - Int.fract (t.rhs i) ∈ Scalar.integers := by
  -- the fractional parts differ from the row by integers, and the row holds
  have hfloor : ∑ j ∈ range t.nrColumns, Int.fract (t.entry i j) * x j - Int.fract (t.rhs i) =
      ⌊t.rhs i⌋ - ∑ j ∈ range t.nrColumns, ⌊t.entry i j⌋ * x j := by
    have hrow := hx i hi
    simp only [Int.fract, sub_mul, Finset.sum_sub_distrib, hrow]
    ring
  rw [hfloor]
  refine sub_mem (Scalar.intCast_mem_integers _) (sum_mem fun j hj => ?_)
  by_cases hzero : t.entry i j = 0
  · rw [hzero, Int.floor_zero, Int.cast_zero, zero_mul]
    exact zero_mem _
  · exact mul_mem (Scalar.intCast_mem_integers _) (hint j (Finset.mem_range.mp hj) hzero)

theorem fract_rhs_le (hx : t.Feasible x) :
    Int.fract (t.rhs i) ≤ ∑ j ∈ range t.nrColumns, Int.fract (t.entry i j) * x j := by
  obtain ⟨z, hz⟩ := Scalar.mem_integers.mp (surplus_mem hi hint hx.satisfies)
  have hsum : 0 ≤ ∑ j ∈ range t.nrColumns, Int.fract (t.entry i j) * x j :=
    Finset.sum_nonneg fun j hj => mul_nonneg (Int.fract_nonneg _) (hx.nonneg j (Finset.mem_range.mp hj))
  have hgt : (-1 : ℚ) < z := by
    rw [← hz]
    linarith [Int.fract_lt_one (t.rhs i)]
  have hnonneg : 0 ≤ z := by
    have hgt' : -1 < z := by exact_mod_cast hgt
    omega
  rw [← sub_nonneg, hz]
  exact_mod_cast hnonneg

end Row

/-! ### Appending a cut -/

theorem addCut_eq (t : Tableau ℚ) (cut : Cut ℚ) : t.addCut cut = t.addInequality cut.coefficients (-1) cut.rhs := rfl

theorem length_coefficients_le (h : t.cut? mask 0 = some cut) : cut.coefficients.length ≤ t.nrColumns := by
  obtain ⟨i, -, -, -, rfl⟩ := cut?_eq_some h
  rw [List.length_map]
  exact List.length_take_le ..

/-- A solution of integers is kept, and the surplus is one more integer. -/
theorem AtBasis.exists_feasible_addCut (h : t.AtBasis) (hcut : t.cut? mask 0 = some cut) (hx : t.Feasible x)
    (hint : ∀ j < t.nrColumns, x j ∈ Scalar.integers) :
    ∃ y, (t.addCut cut).Feasible y ∧ (∀ j < t.nrColumns, y j = x j) ∧
      ∀ j < t.nrColumns + 1, y j ∈ Scalar.integers := by
  have hlen := length_coefficients_le hcut
  obtain ⟨i, hi, -, -, rfl⟩ := cut?_eq_some hcut
  have hrow : ∀ j < t.nrColumns, t.entry i j ≠ 0 → x j ∈ Scalar.integers := fun j hj _ => hint j hj
  have hsum : ∀ y : ℕ → ℚ, (∀ j < t.nrColumns, y j = x j) →
      ∑ j ∈ range t.nrColumns, ((t.row i).map Int.fract).getD j 0 * y j =
        ∑ j ∈ range t.nrColumns, Int.fract (t.entry i j) * x j := by
    intro y hy
    refine Finset.sum_congr rfl fun j hj => ?_
    rw [h.wellFormed.getD_map_fract_row hi (Finset.mem_range.mp hj), hy j (Finset.mem_range.mp hj)]
  have hle : (-1 : ℚ) * ∑ j ∈ range t.nrColumns, ((t.row i).map Int.fract).getD j 0 * x j ≤
      -1 * Int.fract (t.rhs i) := by
    rw [hsum x fun _ _ => rfl, neg_one_mul, neg_one_mul, neg_le_neg_iff]
    exact fract_rhs_le hi hrow hx
  rw [addCut_eq]
  obtain ⟨y, hy, hagree⟩ := h.exists_feasible_addInequality hlen hx hle
  refine ⟨y, hy, hagree, fun j hj => ?_⟩
  rcases Nat.lt_succ_iff_lt_or_eq.mp hj with hj | rfl
  · rw [hagree j hj]
    exact hint j hj
  · have hslack := ((h.satisfies_addInequality hlen y).mp hy.satisfies).2
    rw [hsum y hagree] at hslack
    have hsurplus : y t.nrColumns =
        ∑ j ∈ range t.nrColumns, Int.fract (t.entry i j) * x j - Int.fract (t.rhs i) := by linarith
    rw [hsurplus]
    exact surplus_mem hi hrow hx.satisfies

end Tableau

/-! ### The invariant -/

/-- The assignment is feasible and all its values are integers. -/
def Model.PureIntegerFeasible (m : Model ℚ) (y : List ℚ) : Prop :=
  m.Feasible y ∧ ∀ v < m.nrVariables, ∃ z : ℤ, y.getD v 0 = z

/-- What a report says about the model. -/
structure CutReport.Correct (m : Model ℚ) (report : CutReport ℚ) : Prop where
  optimal : ∀ best, report.outcome = .optimal best →
    m.PureIntegerFeasible best.values ∧ best.objectiveValue = m.objectiveValue best.values ∧
      ∀ y, m.PureIntegerFeasible y → ¬m.direction.isBetter (m.objectiveValue y) best.objectiveValue 0
  infeasible : report.outcome = .infeasible → ∀ y, ¬m.PureIntegerFeasible y
  unbounded : report.outcome = .unbounded → m.Verdict .unbounded

namespace CanonicalForm

variable {c : CanonicalForm ℚ} {m : Model ℚ} {t u : Tableau ℚ} {s : Session ℚ}

/-- The tableau is a subproblem that holds every integer assignment, with integers in all columns. -/
structure CutSound (c : CanonicalForm ℚ) (m : Model ℚ) (t : Tableau ℚ) : Prop where
  subproblem : c.Subproblem m t
  covers : ∀ y, m.PureIntegerFeasible y →
    ∃ x, t.Feasible x ∧ c.assignment x = y ∧ ∀ j < t.nrColumns, x j ∈ Scalar.integers

namespace CutSound

theorem holds (h : CutSound c m t) {y : List ℚ} (hy : m.PureIntegerFeasible y) : c.Holds t y := by
  obtain ⟨x, hx, hxy, -⟩ := h.covers y hy
  exact ⟨x, hx, hxy⟩

theorem rewrites (h : CutSound c m t) (hrew : t.Rewrites u) : CutSound c m u := by
  refine ⟨h.subproblem.rewrites hrew, fun y hy => ?_⟩
  obtain ⟨x, hx, hxy, hint⟩ := h.covers y hy
  exact ⟨x, (hrew.equivalent.feasible_iff x).mpr hx, hxy, hrew.equivalent.nrColumns_eq.symm ▸ hint⟩

theorem addCut (hrep : c.Represents m) (h : CutSound c m t) {mask : List Bool} {cut : Cut ℚ}
    (hcut : t.cut? mask 0 = some cut) : CutSound c m (t.addCut cut) := by
  refine ⟨h.subproblem.addInequality (Tableau.length_coefficients_le hcut) _ _, fun y hy => ?_⟩
  obtain ⟨x, hx, rfl, hint⟩ := h.covers y hy
  obtain ⟨x', hx', hagree, hint'⟩ := h.subproblem.atBasis.exists_feasible_addCut hcut hx hint
  refine ⟨x', hx', hrep.assignment_congr fun j hj => hagree j (hj.trans_le h.subproblem.nrColumns_le), ?_⟩
  rw [Tableau.addCut_eq, h.subproblem.atBasis.wellFormed.nrColumns_addInequality]
  exact hint'

/-! ### Ends of a run -/

section End

variable (h : CutSound c m u)
include h

theorem not_feasible_of_end (hend : u.SolveEnd .infeasible) (y : List ℚ) : ¬m.PureIntegerFeasible y := by
  obtain ⟨i, hi, hrhs, hentry⟩ := hend
  exact fun hy => not_holds_of_row hi hrhs hentry (h.holds hy)

theorem verdict_of_end (hend : u.SolveEnd .unbounded) : m.Verdict .unbounded := by
  intro bound
  obtain ⟨x, hx, hgt⟩ := Tableau.Verdict.of_solveEnd h.subproblem.atBasis hend (m.direction.sign * bound)
  refine ⟨c.assignment x, h.subproblem.feasible x hx, ?_⟩
  rw [Direction.isBetter_iff, ← h.subproblem.objectiveAt_eq x hx]
  exact hgt

/-- Without a further cut, the basic solution consists of integers. -/
theorem basicSolution_mem (hnone : u.cut? (List.replicate u.nrColumns true) 0 = none) (j : ℕ) :
    Tableau.ofList u.basicSolution j ∈ Scalar.integers := by
  have hbasis := h.subproblem.atBasis
  by_cases hj : j ∈ u.basis
  · exact hbasis.basicSolution_mem hnone hj (List.getD_replicate _ (hbasis.wellFormed.basis_lt j hj))
  · rw [hbasis.unitAt.basicSolution_of_notMem hj]
    exact zero_mem _

theorem optimal_of_end (hrep : c.Represents m) {values : List ℚ} (hend : u.SolveEnd (.optimal values))
    (hnone : u.cut? (List.replicate u.nrColumns true) 0 = none) :
    m.PureIntegerFeasible (c.solution u values).values ∧
      (c.solution u values).objectiveValue = m.objectiveValue (c.solution u values).values ∧
      ∀ y, m.PureIntegerFeasible y →
        ¬m.direction.isBetter (m.objectiveValue y) (c.solution u values).objectiveValue 0 := by
  obtain ⟨rfl, hrhs, hcost⟩ := hend
  obtain ⟨hfeasible, hobjective⟩ := h.subproblem.feasible_solution hrep hrhs
  refine ⟨⟨hfeasible, fun v hv => ?_⟩, hobjective, fun y hy => h.subproblem.not_isBetter hrep hcost (h.holds hy)⟩
  have hv' : v < c.placements.length := hrep.length_placements.symm ▸ hv
  rw [← Scalar.mem_integers]
  show (c.modelValues u.basicSolution).getD v 0 ∈ Scalar.integers
  rw [getD_modelValues hv']
  exact Placement.value_mem _ fun j _ => h.basicSolution_mem hnone j

end End

end CutSound

/-! ### Whole runs -/

theorem CutSound.solve (h : CutSound c m t) (hs : s.tolerance = 0) : CutSound c m (t.solve s).tableau :=
  h.rewrites (Tableau.startsAt_solve h.subproblem.atBasis hs).rewrites

/-- The loop starts over with one more column, which is marked. -/
theorem correct_cutLoop (hrep : c.Represents m) {remaining nrCuts : ℕ} {mask : List Bool} (h : CutSound c m t)
    (hmask : mask = List.replicate t.nrColumns true) (hs : s.tolerance = 0) {report : CutReport ℚ}
    (hok : (c.cutLoop remaining nrCuts mask t s).1 = .ok report) : report.Correct m := by
  -- by the remaining cuts; the cases are the answers of the solver, and for an optimum whether a cut is due
  fun_induction cutLoop c remaining nrCuts mask t s with
  | case1 remaining nrCuts mask t s run e hres => cases hok
  | case2 remaining nrCuts mask t s run hres =>
    obtain rfl := Except.ok.inj hok
    have hend := Tableau.solveEnd_solve h.subproblem.atBasis hs hres
    exact ⟨by simp, fun _ => (h.solve hs).not_feasible_of_end hend, by simp⟩
  | case3 remaining nrCuts mask t s run hres =>
    obtain rfl := Except.ok.inj hok
    have hend := Tableau.solveEnd_solve h.subproblem.atBasis hs hres
    exact ⟨by simp, by simp, fun _ => (h.solve hs).verdict_of_end hend⟩
  | case4 remaining nrCuts mask t s run values hres hnone solution =>
    obtain rfl := Except.ok.inj hok
    have hend := Tableau.solveEnd_solve h.subproblem.atBasis hs hres
    have hcolumns := (Tableau.startsAt_solve h.subproblem.atBasis hs).rewrites.equivalent.nrColumns_eq
    rw [hs, hmask, ← hcolumns] at hnone
    have hsnap : solution = c.solution run.tableau values := by
      show Solution.snap _ _ s.tolerance = _
      rw [hs, snap_eq]
    refine ⟨fun best hbest => ?_, by simp, by simp⟩
    obtain rfl := Outcome.optimal.inj hbest
    rw [hsnap]
    exact (h.solve hs).optimal_of_end hrep hend hnone
  | case5 => cases hok
  | case6 nrCuts mask t s run values hres cut hcut remaining next ih =>
    have hstart := Tableau.startsAt_solve h.subproblem.atBasis hs
    rw [hs] at hcut
    have hsolved := h.solve hs
    refine ih (hsolved.addCut hrep hcut) ?_ ?_ hok
    · rw [hmask, ← List.replicate_succ', ← hstart.rewrites.equivalent.nrColumns_eq]
      exact congrArg (List.replicate · true) hsolved.subproblem.atBasis.wellFormed.nrColumns_addInequality.symm
    · rw [Session.tolerance_record, Session.tolerance, hstart.settings_eq]
      exact hs

/-! ### The first tableau -/

theorem eq_replicate_of_ok {derived columns : List Bool} {e : Error}
    (h : (if derived.all id then .ok derived else .error e) = (.ok columns : Except Error (List Bool))) :
    derived = columns ∧ columns = List.replicate derived.length true := by
  split_ifs at h with hall
  obtain rfl := Except.ok.inj h
  exact ⟨rfl, List.eq_replicate_iff.mpr ⟨rfl, fun b hb => List.all_eq_true.mp hall b hb⟩⟩

theorem cutColumns_eq_ok {α : Type} [Scalar α] {c : CanonicalForm α}
    (hderived : c.integerColumns = deriveIntegerColumns c.tableau c.placements c.integerVariables) {columns : List Bool}
    (h : c.cutColumns = .ok columns) :
    columns = List.replicate c.tableau.nrColumns true ∧
      ∃ integers, deriveIntegerColumns c.tableau c.placements integers = columns := by
  unfold cutColumns at h
  split_ifs at h with hmixed hempty
  · obtain ⟨hcolumns, hall⟩ := eq_replicate_of_ok h
    rw [pureIntegerColumns, length_deriveIntegerColumns] at hall
    exact ⟨hall, _, hcolumns⟩
  · obtain ⟨hcolumns, hall⟩ := eq_replicate_of_ok h
    rw [hderived, length_deriveIntegerColumns] at hall
    exact ⟨hall, _, hderived.symm.trans hcolumns⟩

theorem cutSound_start (hrep : c.Represents m) (hm : m.Valid) (hdata : m.IntegerData) {integers : List ℕ}
    (hall : deriveIntegerColumns c.tableau c.placements integers = List.replicate c.tableau.nrColumns true) :
    CutSound c m c.tableau := by
  refine ⟨hrep.subproblem hm, fun y hy => ?_⟩
  obtain ⟨x, hx, rfl⟩ := hrep.exists_feasible hm hy.1
  have hmarks : MarksIntegers (deriveIntegerColumns c.tableau c.placements integers) x := by
    refine marksIntegers_deriveIntegerColumns hrep.atBasis (hrep.sharpData hdata.sharpData hm) hx.satisfies fun v _ j hv => ?_
    -- the column of the variable is the variable
    obtain ⟨hv', hdirect⟩ := List.getElem?_eq_some_iff.mp hv
    have hvalue := hy.2 v (hrep.length_placements ▸ hv')
    rw [assignment, List.getD_eq_getElem _ _ (by rw [List.length_map]; exact hv'), List.getElem_map, hdirect] at hvalue
    exact Scalar.mem_integers.mpr hvalue
  refine ⟨x, hx, rfl, fun j hj => hmarks j ?_⟩
  rw [hall, List.getD_replicate _ hj]

end CanonicalForm

/-- Cutting planes in exact arithmetic, on a model with integer data, with any settings and after any number of cuts. An
optimum that is reported has integer values, is feasible with the objective value that is given, and cannot be improved
by integers. There is no integer assignment if none is reported, and the relaxation of a model that is reported as
unbounded is unbounded. Nothing is assumed of the domains, since the method refuses the models it does not apply to. -/
theorem Model.correct_cuttingPlane {direction : Direction} {cost : List ℚ} {rows : List (List ℚ)}
    {relations : List Relation} {rhs : List ℚ} {domains : List VariableDomain} {m : Model ℚ}
    (hm : Model.ofData direction cost rows relations rhs domains = .ok m) (hdata : m.IntegerData) (s : Session ℚ)
    (hs : s.settings.tolerances.general = 0) {report : CutReport ℚ}
    (hok : ((CanonicalForm.ofModel m).cuttingPlane s).1 = .ok report) : report.Correct m := by
  have hvalid := valid_of_ofData hm
  have hrep := CanonicalForm.represents_ofModel hvalid
  unfold CanonicalForm.cuttingPlane at hok
  cases hcolumns : (CanonicalForm.ofModel m).cutColumns with
  | error e =>
    rw [hcolumns] at hok
    cases hok
  | ok columns =>
    rw [hcolumns] at hok
    obtain ⟨hall, integers, hderived⟩ := CanonicalForm.cutColumns_eq_ok rfl hcolumns
    have hstart := CanonicalForm.cutSound_start hrep hvalid hdata (hderived.trans hall)
    exact CanonicalForm.correct_cutLoop hrep hstart hall ((Session.tolerance_record ..).trans hs) hok

/-- A model that needs two cuts, the second of them from a tableau with the first. -/
def cuttingModel : Model ℚ where
  direction := .maximize
  cost := [7, 9]
  domains := [.integer, .integer]
  constraints := [⟨[-1, 3], .less, 6⟩, ⟨[7, 1], .less, 35⟩]

theorem Model.correct_cuttingPlane_cuttingModel :
    Model.ofData .maximize [7, 9] [[-1, 3], [7, 1]] [.less, .less] [6, 35] [.integer, .integer] = .ok cuttingModel ∧
    cuttingModel.IntegerData ∧
    ∃ report, ((CanonicalForm.ofModel cuttingModel).cuttingPlane .exact).1 = .ok report ∧
      report.outcome.map (·.values) = .optimal [4, 3] ∧ report.nrCuts = 2 ∧ report.Correct cuttingModel := by
  have hmodel : Model.ofData .maximize [7, 9] [[-1, 3], [7, 1]] [.less, .less] [6, 35] [.integer, .integer] =
      .ok cuttingModel := by decide +kernel
  have hnum : ∀ c ∈ cuttingModel.constraints, (∀ a ∈ c.coefficients, a = a.num) ∧ c.rhs = c.rhs.num := by decide
  have hdata : cuttingModel.IntegerData :=
    fun c hc => ⟨fun a ha => ⟨a.num, (hnum c hc).1 a ha⟩, c.rhs.num, (hnum c hc).2⟩
  have hreport : ((CanonicalForm.ofModel cuttingModel).cuttingPlane .exact).1.map
      (fun report => (report.outcome.map (·.values), report.nrCuts)) = .ok (.optimal [4, 3], 2) := by decide +kernel
  refine ⟨hmodel, hdata, ?_⟩
  cases hres : ((CanonicalForm.ofModel cuttingModel).cuttingPlane .exact).1 with
  | error e => simp [hres, Except.map] at hreport
  | ok report =>
    simp only [hres, Except.map, Except.ok.injEq, Prod.mk.injEq] at hreport
    exact ⟨report, rfl, hreport.1, hreport.2, correct_cuttingPlane hmodel hdata .exact rfl hres⟩

end LinearProgramming
