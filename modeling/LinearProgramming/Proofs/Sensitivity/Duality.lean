import LinearProgramming.Proofs.Sensitivity.Range

/-! # Duality of an optimum

In the tableau of an analyzer, the relative cost of a slack column is the shadow price of its row
(`Analyzer.Tracks.relativeCost_slackColumn`), and the value of a slack column is what the inequality of its row leaves
(`Analyzer.Tracks.slack_eq`). So the prices of an optimum are nonnegative, and a price is zero unless the inequality is
tight. The price of a constraint is the signed sum of the prices of its rows. -/

namespace LinearProgramming

open Finset

variable {a : Analyzer ℚ} {m : Model ℚ} {b : BasisInverse ℚ} {first : Tableau ℚ} {cost : List ℚ} {source : RowSource}
  {con : Constraint ℚ} {i index : ℕ}

namespace BasisInverse.Inverts

theorem length_shadowPrices (h : b.Inverts first) : (b.shadowPrices cost).length = first.nrRows := by
  rw [shadowPrices, RowMatrix.vecMul, List.length_map, List.length_range, h.regular.nrColumns_eq]

/-- Both are the basic costs times the basic values. -/
theorem objectiveValue_tableau_eq_dot (h : b.Inverts first) (hwf : first.WellFormed) :
    (b.tableau first cost).objectiveValue = Scalar.dot (b.shadowPrices cost) first.rhsValues := by
  rw [h.objectiveValue_tableau hwf, h.dot_shadowPrices_rhsValues]
  refine Finset.sum_congr rfl fun l hl => ?_
  rw [h.rhs_tableau hwf (Finset.mem_range.mp hl)]

/-- A column that is a unit vector without a cost has the price of its row as relative cost. -/
theorem relativeCost_tableau_of_unit (h : b.Inverts first) (hwf : first.WellFormed) {j : ℕ} (hi : i < first.nrRows)
    (hj : j < first.nrColumns) (hcost : cost.getD j 0 = 0)
    (hunit : ∀ k < first.nrRows, first.entry k j = if k = i then 1 else 0) :
    (b.tableau first cost).relativeCost j = (b.shadowPrices cost).getD i 0 := by
  rw [h.relativeCost_tableau_eq hwf hj, relativeCost, hcost, sub_zero, first.dot_column,
    Finset.sum_eq_single_of_mem i (Finset.mem_range.mpr hi), hunit i hi, if_pos rfl, mul_one]
  intro k hk hne
  rw [hunit k (Finset.mem_range.mp hk), if_neg hne, mul_zero]

end BasisInverse.Inverts

namespace Analyzer.Tracks

variable (h : a.Tracks m)
include h

/-! ### Prices and slacks of rows -/

theorem relativeCost_slackColumn (hi : i < a.canonical.tableau.nrRows) :
    a.tableau.relativeCost (a.canonical.slackColumn i) = a.shadowPrices.getD i 0 := by
  have hunit := h.represents.atBasis.unitAt
  have hlt : a.canonical.slackColumn i < a.canonical.tableau.nrColumns := hunit.getD_lt hi
  have hcost : a.canonical.canonicalCost.getD (a.canonical.slackColumn i) 0 = 0 := by
    rw [a.canonical.getD_canonicalCost hlt, CanonicalForm.slackColumn, hunit.cost i hi, neg_zero]
  rw [← h.shadowPrices_ownBasis, ← h.inverts_ownBasis.relativeCost_tableau_of_unit
    h.represents.atBasis.wellFormed hi hlt hcost fun k hk => hunit.entry i hi k hk, h.tableau_ownBasis]

theorem slack_eq (hsource : a.canonical.rowSources[i]? = some source) :
    Tableau.ofList a.tableau.basicSolution (a.canonical.slackColumn i) =
      source.sign * (m.sourceRhs source - Scalar.dot (m.sourceCoefficients source) a.values) := by
  have hi : i < a.canonical.tableau.nrRows := h.represents.lt_nrRows hsource
  have hsatisfies := (h.rewrites.equivalent.satisfies_iff _).mp h.rewrites.atBasis.unitAt.satisfies_basicSolution
  have hrow := (h.represents.atBasis.unitAt.satisfies_iff _).mp hsatisfies i hi
  rw [h.represents.sum_row h.valid hsource, h.represents.rhs_eq i source hsource] at hrow
  rw [CanonicalForm.slackColumn, hrow, values, CanonicalForm.modelValues_eq_assignment, mul_sub]

/-- A slack column that is basic has no relative cost, and the other ones have no value. -/
theorem price_mul_slack (hsource : a.canonical.rowSources[i]? = some source) :
    a.shadowPrices.getD i 0 *
      (source.sign * (m.sourceRhs source - Scalar.dot (m.sourceCoefficients source) a.values)) = 0 := by
  have hi : i < a.canonical.tableau.nrRows := h.represents.lt_nrRows hsource
  have hunit := h.rewrites.atBasis.unitAt
  rw [← h.slack_eq hsource, ← h.relativeCost_slackColumn hi]
  by_cases hbasic : a.canonical.slackColumn i ∈ a.tableau.basis
  · rw [hunit.relativeCost_eq_zero hbasic, zero_mul]
  · rw [hunit.basicSolution_of_notMem hbasic, mul_zero]

theorem objectiveValue_eq_dot :
    a.tableau.objectiveValue = Scalar.dot a.shadowPrices a.canonical.tableau.rhsValues := by
  rw [← h.shadowPrices_ownBasis, ← h.inverts_ownBasis.objectiveValue_tableau_eq_dot h.represents.atBasis.wellFormed,
    h.tableau_ownBasis]

theorem sign_mul_dot_rhsValues :
    m.direction.sign * Scalar.dot a.shadowPrices a.canonical.tableau.rhsValues = a.objectiveValue := by
  rw [← h.objectiveValue_eq_dot, ← h.represents.direction_eq]
  rfl

theorem objectiveValue_eq : a.objectiveValue = m.objectiveValue a.values :=
  h.represents.objectiveValue_solution h.rewrites

theorem shadowPrices_nonneg (hopt : a.tableau.isOptimal 0 = true) (hi : i < a.canonical.tableau.nrRows) :
    0 ≤ a.shadowPrices.getD i 0 := by
  rw [← h.relativeCost_slackColumn hi]
  refine (Tableau.isOptimal_iff.mp hopt).2 _ ?_
  rw [h.rewrites.equivalent.nrColumns_eq]
  exact h.represents.atBasis.unitAt.getD_lt hi

theorem duality_eq (hopt : a.tableau.isOptimal 0 = true) :
    a.duality = ⟨a.objectiveValue, a.objectiveValue, true, .strong⟩ := by
  have hprices : a.shadowPrices.all (!Scalar.isNegative · 0) = true := by
    refine List.all_eq_true.mpr fun y hy => ?_
    obtain ⟨i, hi, rfl⟩ := List.mem_iff_getElem.mp hy
    have hnonneg : 0 ≤ a.shadowPrices.getD i 0 := h.shadowPrices_nonneg hopt (h.inverts.length_shadowPrices ▸ hi)
    rw [List.getD_eq_getElem _ _ hi] at hnonneg
    simpa [Scalar.isNegative] using hnonneg
  have hdual : a.tableau.isDualFeasible 0 = true := (Bool.and_eq_true_iff.mp hopt).2
  have hobjective : a.canonical.direction.sign * Scalar.dot a.shadowPrices a.canonical.tableau.rhsValues =
      a.objectiveValue := by
    rw [h.represents.direction_eq, h.sign_mul_dot_rhsValues]
  have hgap : Scalar.isZero (Scalar.abs (a.objectiveValue - a.objectiveValue)) 0 = true := by
    rw [Scalar.isZero_zero_iff, Scalar.abs_eq, sub_self, abs_zero]
  simp only [duality, h.general_eq, hprices, hdual, hobjective, hgap, Bool.and_self, if_true]

/-! ### Prices of constraints -/

theorem getElem?_constraintPrices (hcon : m.constraints[index]? = some con) :
    a.constraintPrices[index]? =
      some (m.direction.sign * combinedPrice a.shadowPrices (a.canonical.constraintRows index)) := by
  have hindex : index < a.canonical.nrConstraints := by
    rw [h.represents.nrConstraints_eq]
    exact (List.getElem?_eq_some_iff.mp hcon).1
  rw [constraintPrices, List.getElem?_map, List.getElem?_range hindex, Option.map_some, h.represents.direction_eq]

theorem combinedPrice_mul_slack (hcon : m.constraints[index]? = some con) :
    combinedPrice a.shadowPrices (a.canonical.constraintRows index) *
      (con.rhs - Scalar.dot con.coefficients a.values) = 0 := by
  rw [h.represents.combinedPrice_eq, Finset.sum_mul]
  -- both halves of an equality leave the same up to the sign, so each term is zero on its own
  refine Finset.sum_eq_zero fun i _ => ?_
  rcases h.represents.rowSign_cases hcon i with hzero | ⟨half, -, hsource, hsign⟩
  · rw [hzero, zero_mul, zero_mul]
  · have hslack := h.price_mul_slack hsource
    simp only [RowSource.sign, Model.sourceRhs, Model.sourceCoefficients, hcon, Option.map_some, Option.getD_some]
      at hslack
    rw [hsign, mul_comm half.sign, mul_assoc, hslack]

/-- A constraint that is not an equality has rows of one half only. -/
theorem combinedPrice_nonneg (hopt : a.tableau.isOptimal 0 = true) (hcon : m.constraints[index]? = some con)
    {half : Relation} (hhalves : con.relation.halves = [half]) :
    0 ≤ half.sign * combinedPrice a.shadowPrices (a.canonical.constraintRows index) := by
  rw [h.represents.combinedPrice_eq, Finset.mul_sum]
  refine Finset.sum_nonneg fun i hi => ?_
  rcases h.represents.rowSign_cases hcon i with hzero | ⟨half', hhalf, -, hsign⟩
  · rw [hzero, zero_mul, mul_zero]
  · rw [hhalves, List.mem_singleton] at hhalf
    rw [hsign, hhalf, half.sign_mul_sign]
    exact h.shadowPrices_nonneg hopt (Finset.mem_range.mp hi)

end Analyzer.Tracks

/-- The price supports the constraint at a point: it is zero unless the constraint is tight, and has the sign of the
relation when the objective is maximised. -/
structure Constraint.Supports (con : Constraint ℚ) (direction : Direction) (x : List ℚ) (price : ℚ) : Prop where
  mul_slack : price * (con.rhs - Scalar.dot con.coefficients x) = 0
  nonneg_of_less : con.relation = .less → 0 ≤ direction.sign * price
  nonpos_of_greater : con.relation = .greater → direction.sign * price ≤ 0

/-- After any sequence of changes, the shadow prices of an optimum are feasible for the dual problem, and what they make
of the right hand sides is the objective of the current model at the values reported. The price of each of its
constraints supports it. -/
theorem Analyzer.strong_duality {direction : Direction} {cost : List ℚ} {rows : List (List ℚ)}
    {relations : List Relation} {rhs : List ℚ} {domains : List VariableDomain} {start : Model ℚ}
    (hstart : Model.ofData direction cost rows relations rhs domains = .ok start)
    (hreached : Analyzer.Reached start m a) (hopt : a.tableau.isOptimal 0 = true) :
    a.duality.dualFeasible = true ∧ a.duality.primalObjective = a.duality.dualObjective ∧
      a.duality.duality = .strong ∧
      a.duality.primalObjective = a.objectiveValue ∧ a.duality.dualObjective = a.objectiveValue ∧
      a.objectiveValue = m.objectiveValue a.values ∧
      a.objectiveValue = m.direction.sign * Scalar.dot a.shadowPrices a.canonical.tableau.rhsValues ∧
      ∀ (index : ℕ) (con : Constraint ℚ), m.constraints[index]? = some con →
        ∃ price, a.constraintPrices[index]? = some price ∧ con.Supports m.direction a.values price := by
  have h := Analyzer.tracks_of_reached (Model.valid_of_ofData hstart) hreached
  rw [h.duality_eq hopt]
  refine ⟨rfl, rfl, rfl, rfl, rfl, h.objectiveValue_eq, h.sign_mul_dot_rhsValues.symm,
    fun index con hcon => ⟨_, h.getElem?_constraintPrices hcon, ?_, ?_, ?_⟩⟩
  · rw [mul_assoc, h.combinedPrice_mul_slack hcon, mul_zero]
  · intro hless
    have hhalves : con.relation.halves = [.less] := by rw [hless, Relation.halves]
    have hprice := h.combinedPrice_nonneg hopt hcon hhalves
    rw [Direction.sign_mul_sign]
    simpa [Relation.sign] using hprice
  · intro hgreater
    have hhalves : con.relation.halves = [.greater] := by rw [hgreater, Relation.halves]
    have hprice := h.combinedPrice_nonneg hopt hcon hhalves
    rw [Direction.sign_mul_sign]
    simpa [Relation.sign] using hprice

-- The third constraint is not tight, and the last one was added.
theorem Analyzer.strong_duality_blendModel :
    Model.ofData .minimize [2, -3, 1] [[1, -1, 1], [1, 1, 0], [0, -1, 2]] [.greater, .equal, .less] [4, 1, 8]
        [.nonnegative, .nonpositive, .nonnegative] = .ok blendModel ∧
      ∃ a, Analyzer.Reached blendModel ((blendModel.setRhs 0 6).addConstraint [1, 0, 1] .less 4) a ∧
        a.tableau.isOptimal 0 = true ∧ a.values = [3, -2, 1] ∧ a.constraintPrices = [4, 1, 0, -3] ∧
        a.duality = ⟨13, 13, true, .strong⟩ ∧
        Scalar.dot a.shadowPrices a.canonical.tableau.rhsValues = -13 ∧
        ∀ (index : ℕ) (con : Constraint ℚ),
          ((blendModel.setRhs 0 6).addConstraint [1, 0, 1] .less 4).constraints[index]? = some con →
          ∃ price, a.constraintPrices[index]? = some price ∧ con.Supports .minimize a.values price := by
  have hfirst : ∀ a ∈ blendAnalyzer?, ((Change.setRhs 0 6).apply a .exact).status = .ok (.optimal 9) := by
    decide +kernel
  have hsecond : ∀ a ∈ blendAnalyzer?,
      let changed := (Change.addConstraint [1, 0, 1] .less 4).apply ((Change.setRhs 0 6).apply a .exact).analyzer .exact
      changed.status = .ok (.optimal 13) ∧ changed.analyzer.tableau.isOptimal 0 = true ∧
        changed.analyzer.values = [3, -2, 1] ∧ changed.analyzer.constraintPrices = [4, 1, 0, -3] := by
    decide +kernel
  obtain ⟨a, ha, hstart⟩ := exists_reached_blendModel
  obtain ⟨hstatus, hopt, hvalues, hprices⟩ := hsecond a ha
  obtain ⟨outcome, hres, -⟩ := Changed.exists_of_status (hfirst a ha)
  obtain ⟨outcome', hres', -⟩ := Changed.exists_of_status hstatus
  have hreached : Analyzer.Reached blendModel ((blendModel.setRhs 0 6).addConstraint [1, 0, 1] .less 4) _ :=
    (hstart.change (.setRhs 0 6) rfl hres).change (.addConstraint [1, 0, 1] .less 4) rfl hres'
  obtain ⟨hfeasible, -, hstrong, hprimal, hdual, hvalue, hdot, hsupports⟩ :=
    Analyzer.strong_duality ofData_blendModel hreached hopt
  have hthirteen : ((blendModel.setRhs 0 6).addConstraint [1, 0, 1] .less 4).objectiveValue [3, -2, 1] = 13 := by
    decide +kernel
  have hsign : (((blendModel.setRhs 0 6).addConstraint [1, 0, 1] .less 4).direction.sign : ℚ) = -1 := rfl
  rw [hvalues, hthirteen] at hvalue
  rw [hvalue] at hprimal hdual hdot
  rw [hsign] at hdot
  refine ⟨ofData_blendModel, _, hreached, hopt, hvalues, hprices, ?_, ?_, hsupports⟩
  · exact congr (congr (congr (congrArg DualityReport.mk hprimal) hdual) hfeasible) hstrong
  · linarith

end LinearProgramming
