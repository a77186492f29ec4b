import LinearProgramming.Proofs.Sensitivity.Range

/-! # Changing a coefficient

A changed coefficient leaves the kept inverse valid only if the variable has no column in the basis that was inverted.
What `Analyzer.changeCoefficient` looks at is the basis of the tableau. The two bases differ when the tableau has a unit
vector twice, so there are three cases: the change is refused, its outcome is right, or the column of the variable is
inverted without being basic (`Analyzer.verdict_changeCoefficient`). In the last case a point that is not optimal can be
reported as an optimum (`Analyzer.exists_not_verdict_changeCoefficient`). -/

namespace LinearProgramming

variable {a : Analyzer ℚ} {m : Model ℚ} {s : Session ℚ} {outcome : Outcome (Solution ℚ)} {index v : ℕ} {value : ℚ}

/-- A change of a coefficient that has an outcome was made, for a variable with one column that is not basic. -/
theorem Analyzer.changeCoefficient_cases (hok : (a.changeCoefficient index v value s).result = .ok outcome) :
    ∃ column factor, a.variableColumn v = .ok (column, factor) ∧ a.tableau.isBasic column = false ∧
      a.changeCoefficient index v value s =
        { a with canonical := a.canonical.setCoefficient index v value }.rebuild.reoptimize s := by
  unfold changeCoefficient at hok ⊢
  cases hrows : a.rowsOf index with
  | error e => simp [hrows, refuse] at hok
  | ok rows =>
    cases hcolumn : a.variableColumn v with
    | error e => simp [hrows, hcolumn, refuse] at hok
    | ok p =>
      obtain ⟨column, factor⟩ := p
      cases hbasic : a.tableau.isBasic column with
      | true => simp [hrows, hcolumn, hbasic, refuse] at hok
      | false => exact ⟨column, factor, rfl, hbasic, by simp [hbasic]⟩

theorem Analyzer.Tracks.changeCoefficient (h : a.Tracks m) (hs : s.tolerance = 0)
    (hfree : ∀ r ∈ a.canonical.columnsOf v, r.1 ∉ a.basis.columns)
    (hok : (a.changeCoefficient index v value s).result = .ok outcome) :
    (m.setCoefficient index v value).Verdict outcome ∧
      (a.changeCoefficient index v value s).analyzer.Tracks (m.setCoefficient index v value) := by
  obtain ⟨-, -, -, -, hmade⟩ := Analyzer.changeCoefficient_cases hok
  have hrep := h.represents.setCoefficient index v value
  have hinverts := h.represents.inverts_setCoefficient h.inverts hfree index value
  rw [hmade] at hok ⊢
  exact Analyzer.reoptimize_spec (h.valid.setCoefficient index v value) hrep (Analyzer.rewrites_rebuild hrep hinverts)
    h.general_eq hs hok

/-- After any sequence of changes, a change of a coefficient that is not refused has an outcome that is right for the
changed model, unless the column of the variable was inverted although it is not basic. -/
theorem Analyzer.verdict_changeCoefficient {direction : Direction} {cost : List ℚ} {rows : List (List ℚ)}
    {relations : List Relation} {rhs : List ℚ} {domains : List VariableDomain} {first : Model ℚ}
    (hfirst : Model.ofData direction cost rows relations rhs domains = .ok first)
    (hreached : Analyzer.Reached first m a) (hs : s.settings.tolerances.general = 0)
    (hok : (a.changeCoefficient index v value s).result = .ok outcome) :
    ∃ column factor, a.variableColumn v = .ok (column, factor) ∧ column ∉ a.tableau.basis ∧
      (column ∉ a.basis.columns → (m.setCoefficient index v value).Verdict outcome) := by
  have h := Analyzer.tracks_of_reached (Model.valid_of_ofData hfirst) hreached
  obtain ⟨column, factor, hcolumn, hbasic, -⟩ := Analyzer.changeCoefficient_cases hok
  have hcolumns := (Analyzer.variableColumn_eq_ok hcolumn).1
  refine ⟨column, factor, hcolumn, fun hmem => ?_, fun hfree => (h.changeCoefficient hs (fun r hr => ?_) hok).1⟩
  · rw [← h.rewrites.atBasis.wellFormed.mask_iff, hbasic] at hmem
    cases hmem
  · rw [hcolumns, List.mem_singleton] at hr
    rw [hr]
    exact hfree

/-- A model in which the first variable has the column of a slack. -/
def twinModel : Model ℚ where
  direction := .maximize
  cost := [0, 1]
  domains := [.nonnegative, .nonnegative]
  constraints := [⟨[1, 1], .less, 4⟩, ⟨[0, 1], .less, 3⟩]

/-- The analyzer of the model. Columns 0 and 2 of the optimal tableau are the same unit vector: column 2 is basic, and
column 0 was inverted. -/
def twinAnalyzer : Analyzer ℚ where
  canonical := .ofModel twinModel
  tableau := (CanonicalForm.ofModel twinModel).tableau.pivot 1 1
  basis := ⟨[0, 1], ⟨[[1, -1], [0, 1]], 2⟩⟩
  tolerances := ⟨0, 0, 0⟩

theorem ofData_twinModel :
    Model.ofData .maximize [0, 1] [[1, 1], [0, 1]] [.less, .less] [4, 3] [.nonnegative, .nonnegative] =
      .ok twinModel := by
  decide +kernel

theorem ofModel_twinModel : (Analyzer.ofModel twinModel .exact).1 = .ok (.optimal twinAnalyzer) := by
  decide +kernel

/-- The analyzer after the cost of the first variable was lowered. Its basis is that of its tableau. -/
def loweredAnalyzer : Analyzer ℚ := (twinAnalyzer.changeCost 0 (-1) .exact).analyzer

theorem reached_loweredAnalyzer : Analyzer.Reached twinModel (twinModel.setCost 0 (-1)) loweredAnalyzer := by
  have hstatus : ((Change.setCost 0 (-1)).apply twinAnalyzer .exact).status = .ok (.optimal 3) := by decide +kernel
  obtain ⟨outcome, hok, -⟩ := Changed.exists_of_status hstatus
  exact .change (.setCost 0 (-1)) (.start rfl rfl ofModel_twinModel) rfl hok

-- The column that is not basic enters the basis, with the new coefficient.
theorem Analyzer.verdict_changeCoefficient_twinModel :
    Model.ofData .maximize [0, 1] [[1, 1], [0, 1]] [.less, .less] [4, 3] [.nonnegative, .nonnegative] =
        .ok twinModel ∧
      Analyzer.Reached twinModel (twinModel.setCost 0 (-1)) loweredAnalyzer ∧
      loweredAnalyzer.tableau.basis = [2, 1] ∧ loweredAnalyzer.basis.columns = [2, 1] ∧
      (loweredAnalyzer.changeCoefficient 1 0 (-3) .exact).status = .ok (.optimal (7 / 2)) ∧
      ∃ outcome, (loweredAnalyzer.changeCoefficient 1 0 (-3) .exact).result = .ok outcome ∧
        ((twinModel.setCost 0 (-1)).setCoefficient 1 0 (-3)).Verdict outcome := by
  have hstatus : (loweredAnalyzer.changeCoefficient 1 0 (-3) .exact).status = .ok (.optimal (7 / 2)) := by
    decide +kernel
  have hlookup : loweredAnalyzer.variableColumn 0 = .ok (0, 1) := by decide +kernel
  have hcolumns : loweredAnalyzer.basis.columns = [2, 1] := by decide +kernel
  obtain ⟨outcome, hok, -⟩ := Changed.exists_of_status hstatus
  obtain ⟨column, factor, hcolumn, -, hverdict⟩ :=
    Analyzer.verdict_changeCoefficient ofData_twinModel reached_loweredAnalyzer rfl hok
  obtain ⟨rfl, -⟩ := Prod.mk.inj (Except.ok.inj (hlookup.symm.trans hcolumn))
  refine ⟨ofData_twinModel, reached_loweredAnalyzer, by decide +kernel, hcolumns, hstatus, outcome, hok, hverdict ?_⟩
  rw [hcolumns]
  decide

-- The point `(1/2, 7/2)` is better than the reported optimum.
theorem Analyzer.exists_not_verdict_changeCoefficient :
    (Analyzer.ofModel twinModel .exact).1 = .ok (.optimal twinAnalyzer) ∧
      twinAnalyzer.variableColumn 0 = .ok (0, 1) ∧ twinAnalyzer.tableau.basis = [2, 1] ∧
      twinAnalyzer.basis.columns = [0, 1] ∧
      ∃ outcome, (twinAnalyzer.changeCoefficient 1 0 (-1) .exact).result = .ok outcome ∧
        ¬(twinModel.setCoefficient 1 0 (-1)).Verdict outcome := by
  have hstatus : (twinAnalyzer.changeCoefficient 1 0 (-1) .exact).status = .ok (.optimal 3) := by decide +kernel
  obtain ⟨outcome, hok, hvalue⟩ := Changed.exists_of_status hstatus
  refine ⟨ofModel_twinModel, by decide +kernel, by decide +kernel, by decide +kernel, outcome, hok, fun hverdict => ?_⟩
  cases outcome with
  | infeasible => cases hvalue
  | unbounded => cases hvalue
  | optimal solution =>
    have hthree : solution.objectiveValue = 3 := Outcome.optimal.inj hvalue
    have hbest := hverdict.2.2 [1 / 2, 7 / 2] ⟨rfl, by decide +kernel⟩
    rw [hthree] at hbest
    exact hbest (by decide +kernel)

end LinearProgramming
