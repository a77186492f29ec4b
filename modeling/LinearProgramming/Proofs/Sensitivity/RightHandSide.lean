import LinearProgramming.Proofs.Sensitivity.Duality
import LinearProgramming.Proofs.Simplex.DualFeasible

/-! # Changes of a right hand side within its range

Three computations meet here: the range of a right hand side comes from the columns of the inverse, the price of the
constraint from the costs of the basic columns, and the change itself rebuilds the tableau and solves it again. As long
as the change stays within the range, the rebuilt tableau is optimal (`Analyzer.Tracks.isOptimal_withRhs`), so that the
solve has nothing to do (`Analyzer.Tracks.changeRhs_eq`), and its objective value has moved at the rate of the price
(`Analyzer.Tracks.objectiveValue_withRhs`). -/

namespace LinearProgramming

open Finset

variable {a : Analyzer ℚ} {m : Model ℚ} {c : CanonicalForm ℚ} {b : BasisInverse ℚ} {first : Tableau ℚ}
  {cost : List ℚ} {columns : List ℕ} {con : Constraint ℚ} {s : Session ℚ} {report : RangeReport ℚ} {delta : ℚ}
  {index : ℕ}

/-- The analyzer with another right hand side and the tableau that its basis then has. -/
def Analyzer.withRhs (a : Analyzer ℚ) (index : ℕ) (rhs : ℚ) : Analyzer ℚ :=
  { a with canonical := a.canonical.setRhs index rhs }.rebuild

/-! ### Prices -/

theorem Tableau.dot_rhsValues (prices : List ℚ) (t : Tableau ℚ) :
    Scalar.dot prices t.rhsValues = ∑ i ∈ range t.nrRows, prices.getD i 0 * t.rhs i := by
  rw [Scalar.dot_eq_sum_range _ _ t.nrRows (by simp [Tableau.rhsValues])]
  refine Finset.sum_congr rfl fun i hi => ?_
  have hrhs : t.rhsValues.getD i 0 = t.rhs i := by simp [Tableau.rhsValues, Finset.mem_range.mp hi]
  rw [hrhs]

theorem CanonicalForm.Represents.shadowPrices_setRhs (h : c.Represents m) (hb : b.Inverts c.tableau) (rhs : ℚ) :
    b.shadowPrices (c.setRhs index rhs).canonicalCost = b.shadowPrices c.canonicalCost :=
  BasisInverse.shadowPrices_congr fun j hj => h.getD_canonicalCost_setRhs rhs (hb.lt j hj)

/-- Whether the tableau of a basis is optimal does not depend on how the columns are named. -/
theorem BasisInverse.Inverts.isOptimal_withColumns (h : b.Inverts first) (h' : (b.withColumns columns).Inverts first)
    (hwf : first.WellFormed) (hprices : (b.withColumns columns).shadowPrices cost = b.shadowPrices cost) :
    (b.tableau first cost).isOptimal 0 = ((b.withColumns columns).tableau first cost).isOptimal 0 := by
  have hrhs : ∀ i < first.nrRows, ((b.withColumns columns).tableau first cost).rhs i = (b.tableau first cost).rhs i := by
    intro i hi
    rw [h.rhs_tableau hwf hi, h'.rhs_tableau hwf hi]
    rfl
  have hcost : ∀ j < first.nrColumns,
      ((b.withColumns columns).tableau first cost).relativeCost j = (b.tableau first cost).relativeCost j := by
    intro j hj
    rw [h.relativeCost_tableau_eq hwf hj, h'.relativeCost_tableau_eq hwf hj, hprices]
  rw [Bool.eq_iff_iff, Tableau.isOptimal_iff, Tableau.isOptimal_iff, h.nrRows_tableau hwf, h.nrColumns_tableau hwf,
    h'.nrRows_tableau hwf, h'.nrColumns_tableau hwf]
  refine and_congr (forall₂_congr fun i hi => ?_) (forall₂_congr fun j hj => ?_)
  · rw [hrhs i hi]
  · rw [hcost j hj]

namespace Analyzer.Tracks

variable (h : a.Tracks m)
include h

/-! ### The rebuilt tableau -/

theorem rewrites_withRhs (index : ℕ) (rhs : ℚ) :
    (a.canonical.setRhs index rhs).tableau.Rewrites (a.withRhs index rhs).tableau :=
  rewrites_rebuild (a := { a with canonical := a.canonical.setRhs index rhs }) (h.represents.setRhs index rhs)
    (h.represents.inverts_setRhs h.inverts index rhs)

/-- The range is told for the basis of the tableau, and the rebuilt tableau has the basis of the inverse. -/
theorem isOptimal_withRhs (hok : a.rhsRange index = .ok report) (hdelta : report.interval.contains delta 0 = true) :
    (a.withRhs index (report.current + delta)).tableau.isOptimal 0 = true := by
  have hrep := h.represents.setRhs index (report.current + delta)
  have hinverts := h.represents.inverts_setRhs h.inverts index (report.current + delta)
  have hown := h.represents.inverts_setRhs h.inverts_ownBasis index (report.current + delta)
  have hprices : a.ownBasis.shadowPrices (a.canonical.setRhs index (report.current + delta)).canonicalCost =
      a.basis.shadowPrices (a.canonical.setRhs index (report.current + delta)).canonicalCost := by
    rw [h.represents.shadowPrices_setRhs h.inverts_ownBasis, h.represents.shadowPrices_setRhs h.inverts,
      h.shadowPrices_ownBasis, shadowPrices]
  obtain ⟨con, -, -, htells⟩ := h.tells_rhsRange hok
  obtain ⟨b, hb, hiff⟩ := htells delta
  obtain ⟨b', hb', htableau⟩ := h.exists_ofColumns hrep hown
  obtain rfl := Except.ok.inj (hb.symm.trans hb')
  rw [hiff, htableau] at hdelta
  exact (hinverts.isOptimal_withColumns hown hrep.atBasis.wellFormed hprices).trans hdelta

/-- The objective value moves with the right hand sides of the rows of the constraint, at their prices. -/
theorem objectiveValue_withRhs (hcon : m.constraints[index]? = some con) (delta : ℚ) :
    (a.withRhs index (con.rhs + delta)).tableau.objectiveValue =
      a.tableau.objectiveValue + combinedPrice a.shadowPrices (a.canonical.constraintRows index) * delta := by
  have hinverts := h.represents.inverts_setRhs h.inverts index (con.rhs + delta)
  have hwf := (h.represents.setRhs index (con.rhs + delta)).atBasis.wellFormed
  have hrows := h.represents.nrRows_setRhs index (con.rhs + delta)
  have hobjective : (a.withRhs index (con.rhs + delta)).tableau.objectiveValue =
      Scalar.dot a.shadowPrices (a.canonical.setRhs index (con.rhs + delta)).tableau.rhsValues := by
    rw [shadowPrices, ← h.represents.shadowPrices_setRhs h.inverts (con.rhs + delta)]
    exact hinverts.objectiveValue_tableau_eq_dot hwf
  rw [hobjective, h.objectiveValue_eq_dot, Tableau.dot_rhsValues, Tableau.dot_rhsValues, hrows,
    h.represents.combinedPrice_eq, Finset.sum_mul, ← Finset.sum_add_distrib]
  refine Finset.sum_congr rfl fun i hi => ?_
  rw [h.represents.rhs_setRhs_add hcon delta (Finset.mem_range.mp hi)]
  ring

/-! ### The change -/

/-- An optimal tableau is solved without a pivot. -/
theorem reoptimize_withRhs (rhs : ℚ) (hopt : (a.withRhs index rhs).tableau.isOptimal 0 = true) (hs : s.tolerance = 0) :
    ((a.withRhs index rhs).reoptimize s).result = .ok (.optimal ((a.canonical.setRhs index rhs).solution
        (a.withRhs index rhs).tableau (a.withRhs index rhs).tableau.basicSolution)) ∧
      ((a.withRhs index rhs).reoptimize s).session = s.record .initial (a.withRhs index rhs).tableau := by
  have hrew := h.rewrites_withRhs index rhs
  obtain ⟨hrhs, hcost⟩ := Tableau.isOptimal_iff.mp hopt
  have hdual : (a.withRhs index rhs).tableau.DualFeasible := ⟨hrew.atBasis, hcost⟩
  have hs' : (s.record .initial (a.withRhs index rhs).tableau).tolerance = 0 := by rw [Session.tolerance_record, hs]
  obtain ⟨b, hb, -⟩ := hrew.atBasis.unitAt.ofColumns hrew.equivalent
  have htol : (a.withRhs index rhs).tolerances.general = 0 := h.general_eq
  have hcanonical : (a.withRhs index rhs).canonical = a.canonical.setRhs index rhs := rfl
  simp only [Analyzer.reoptimize, hdual.solve_eq hrhs hs', htol, hcanonical, hb, Outcome.map, and_self]

theorem changeRhs_eq (hcon : m.constraints[index]? = some con) (rhs : ℚ) (s : Session ℚ) :
    a.changeRhs index rhs s = (a.withRhs index rhs).reoptimize s := by
  have hindex : index < a.canonical.nrConstraints := by
    rw [h.represents.nrConstraints_eq]
    exact (List.getElem?_eq_some_iff.mp hcon).1
  simp only [Analyzer.changeRhs, Analyzer.rowsOf, if_pos hindex]
  rfl

end Analyzer.Tracks

/-- After any sequence of changes, a right hand side that moves within its reported range changes the objective value by
the price of the constraint for each unit. The optimum is found without a pivot: the only record is that of the rebuilt
tableau. -/
theorem Analyzer.changeRhs_of_contains {direction : Direction} {cost : List ℚ} {rows : List (List ℚ)}
    {relations : List Relation} {rhs : List ℚ} {domains : List VariableDomain} {start : Model ℚ}
    (hstart : Model.ofData direction cost rows relations rhs domains = .ok start)
    (hreached : Analyzer.Reached start m a) (hok : a.rhsRange index = .ok report)
    (hdelta : report.interval.contains delta 0 = true) (hs : s.settings.tolerances.general = 0) :
    ∃ solution price, (a.changeRhs index (report.current + delta) s).result = .ok (.optimal solution) ∧
      (a.changeRhs index (report.current + delta) s).session = s.record .initial solution.tableau ∧
      (a.changeRhs index (report.current + delta) s).session.nrPivots = s.nrPivots ∧
      a.constraintPrices[index]? = some price ∧ solution.objectiveValue = a.objectiveValue + delta * price := by
  have h := Analyzer.tracks_of_reached (Model.valid_of_ofData hstart) hreached
  obtain ⟨con, hcon, hcurrent, -⟩ := h.tells_rhsRange hok
  obtain ⟨hresult, hsession⟩ := h.reoptimize_withRhs _ (h.isOptimal_withRhs hok hdelta) hs
  have hobjective := h.objectiveValue_withRhs hcon delta
  rw [← hcurrent] at hobjective
  rw [h.changeRhs_eq hcon]
  refine ⟨_, _, hresult, hsession, ?_, h.getElem?_constraintPrices hcon, ?_⟩
  · rw [hsession, Session.nrPivots_record]
  · show a.canonical.direction.sign * (a.withRhs index (report.current + delta)).tableau.objectiveValue =
      a.canonical.direction.sign * a.tableau.objectiveValue + _
    rw [hobjective, h.represents.direction_eq]
    ring

-- The equality is moved after another constraint was changed, by less than the end of its range.
theorem Analyzer.changeRhs_of_contains_blendModel :
    Model.ofData .minimize [2, -3, 1] [[1, -1, 1], [1, 1, 0], [0, -1, 2]] [.greater, .equal, .less] [4, 1, 8]
        [.nonnegative, .nonpositive, .nonnegative] = .ok blendModel ∧
      ∃ a report solution, Analyzer.Reached blendModel (blendModel.setRhs 0 5) a ∧ a.rhsRange 1 = .ok report ∧
        report.interval = ⟨some 0, some 4⟩ ∧ report.interval.contains 3 0 = true ∧
        a.objectiveValue = 6 ∧ a.constraintPrices = [1, 1, 0] ∧
        (a.changeRhs 1 (report.current + 3) .exact).result = .ok (.optimal solution) ∧
        (a.changeRhs 1 (report.current + 3) .exact).session.nrPivots = 0 ∧ solution.objectiveValue = 6 + 3 * 1 := by
  have hchange : ∀ a ∈ blendAnalyzer?, ((Change.setRhs 0 5).apply a .exact).status = .ok (.optimal 6) := by
    decide +kernel
  have hrange : ∀ a ∈ blendAnalyzer?, ((Change.setRhs 0 5).apply a .exact).analyzer.rhsRange 1 =
      .ok ⟨1, [⟨4, -1⟩, ⟨0, 0⟩, ⟨1, 1⟩, ⟨0, 2⟩], ⟨some 0, some 4⟩⟩ := by
    decide +kernel
  have hvalue : ∀ a ∈ blendAnalyzer?, ((Change.setRhs 0 5).apply a .exact).analyzer.objectiveValue = 6 ∧
      ((Change.setRhs 0 5).apply a .exact).analyzer.constraintPrices = [1, 1, 0] := by
    decide +kernel
  obtain ⟨a, ha, hstart⟩ := exists_reached_blendModel
  obtain ⟨outcome, hres, -⟩ := Changed.exists_of_status (hchange a ha)
  have hreached := hstart.change (.setRhs 0 5) rfl hres
  obtain ⟨hobjective, hprices⟩ := hvalue a ha
  have hcontains : (⟨some 0, some 4⟩ : Interval ℚ).contains 3 0 = true := by decide +kernel
  obtain ⟨solution, price, hresult, -, hpivots, hprice, hmoved⟩ :=
    Analyzer.changeRhs_of_contains (s := .exact) ofData_blendModel hreached (hrange a ha) hcontains rfl
  rw [hprices] at hprice
  obtain rfl : 1 = price := Option.some.inj hprice
  rw [hobjective] at hmoved
  exact ⟨ofData_blendModel, _, _, solution, hreached, hrange a ha, rfl, hcontains, hobjective, hprices, hresult, hpivots,
    hmoved⟩

end LinearProgramming
