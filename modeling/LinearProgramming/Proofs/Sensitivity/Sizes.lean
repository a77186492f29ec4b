import LinearProgramming.Proofs.CanonicalForm.Shape
import LinearProgramming.Proofs.Sensitivity.Change

/-! # Sizes of the parts of an analyzer

An analyzer reads its canonical form, its tableau and its basis at indices that one of the other two gives, so the
three have to be of one size. A request changes the canonical form first and then the tableau. The basis follows last,
and only if the tableau could be solved (`Analyzer.reoptimize_cases`).

A new analyzer is consistent, and every request keeps it so, except for one kind: a constraint whose rows are appended
but cannot be solved for leaves a basis without these rows (`Analyzer.Served.sizesAgree_apply_iff`). Nothing is assumed
about the arithmetic. -/

namespace LinearProgramming

variable {α : Type} [Scalar α]

namespace Analyzer

/-- The parts are of one size, and all indices that they keep are in range. -/
structure Consistent (a : Analyzer α) : Prop where
  canonical : a.canonical.Sized
  tableau : a.tableau.HasShape a.canonical.nrRows a.canonical.nrColumns
  basis : a.basis.HasShape a.canonical.nrRows a.canonical.nrColumns

/-- The sizes that the parts report agree. -/
structure SizesAgree (a : Analyzer α) : Prop where
  length_columns : a.basis.columns.length = a.canonical.nrRows
  nrRows_inverse : a.basis.inverse.nrRows = a.canonical.nrRows
  nrColumns_inverse : a.basis.inverse.nrColumns = a.canonical.nrRows
  nrRows_tableau : a.tableau.nrRows = a.canonical.nrRows
  nrColumns_tableau : a.tableau.nrColumns = a.canonical.nrColumns

/-- What the queries look up is in range: the rows of a constraint, of which the first one stands for all, the column of
a variable, and the price of a row. -/
structure LookupsInRange (a : Analyzer α) : Prop where
  rowsOf : ∀ index rows, a.rowsOf index = .ok rows → rows ≠ [] ∧ ∀ p ∈ rows, p.1 < a.canonical.nrRows
  variableColumn : ∀ variableIndex j factor, a.variableColumn variableIndex = .ok (j, factor) →
    j < a.canonical.nrColumns
  length_shadowPrices : a.shadowPrices.length = a.canonical.nrRows

/-- The request appends the rows of a constraint, after which solving or inverting the basis fails. A constraint that
is refused for its number of coefficients appends nothing. -/
def Request.FailsAfterRows (a : Analyzer α) (s : Session α) (r : Request α) : Prop :=
  ∃ coefficients relation rhs e, r = .addConstraint coefficients relation rhs ∧
    coefficients.length = a.canonical.nrVariables ∧ (r.apply a s).result = .error e

/-- The analyzer was built from the model and has served any requests since, also ones that failed, but none that failed
after rows were appended. -/
inductive Served (m : Model α) : Analyzer α → Prop
  | start {a : Analyzer α} {s : Session α} : (Analyzer.ofModel m s).1 = .ok (.optimal a) → Served m a
  | request {a : Analyzer α} {s : Session α} (r : Request α) : Served m a → ¬r.FailsAfterRows a s →
      Served m (r.apply a s).analyzer

variable {a : Analyzer α} {s : Session α} {m : Model α} {r : Request α}

omit [Scalar α] in
theorem Consistent.sizesAgree (h : a.Consistent) : a.SizesAgree :=
  ⟨h.basis.length_columns, h.basis.inverse.nrRows_eq, h.basis.inverse.nrColumns_eq, h.tableau.nrRows_eq,
    h.tableau.nrColumns_eq⟩

theorem Consistent.lookupsInRange (h : a.Consistent) : a.LookupsInRange := by
  refine ⟨fun index rows hrows => ?_, fun variableIndex j factor hcolumn => ?_, ?_⟩
  · unfold rowsOf at hrows
    split_ifs at hrows with hindex
    obtain rfl := Except.ok.inj hrows
    exact ⟨h.canonical.constraintRows_ne_nil hindex, fun p hp => CanonicalForm.Sized.constraintRow_lt hp⟩
  · have hlt : ∀ placement, a.canonical.placements[variableIndex]? = some placement →
        ∀ k ∈ placement.indices, k < a.canonical.nrColumns := fun placement hplacement k hk =>
      h.canonical.placement_lt k (List.mem_flatMap.mpr ⟨placement, List.mem_of_getElem? hplacement, hk⟩)
    unfold variableColumn at hcolumn
    split at hcolumn
    · cases hcolumn
    · next k hplacement =>
      obtain ⟨rfl, -⟩ := Prod.mk.inj (Except.ok.inj hcolumn)
      exact hlt _ hplacement k (List.mem_singleton_self k)
    · next k hplacement =>
      obtain ⟨rfl, -⟩ := Prod.mk.inj (Except.ok.inj hcolumn)
      exact hlt _ hplacement k (List.mem_singleton_self k)
    · cases hcolumn
  · rw [shadowPrices, BasisInverse.shadowPrices, RowMatrix.vecMul, List.length_map, List.length_range]
    exact h.basis.inverse.nrColumns_eq

/-! ### Solving again -/

/-- Solving again replaces the tableau in any case. The basis is that of the new tableau, or the old one after an
error. -/
theorem reoptimize_cases (a : Analyzer α) (s : Session α) :
    (∃ e, a.reoptimize s = ⟨.error e, { a with tableau := (a.tableau.solve (s.record .initial a.tableau)).tableau },
      (a.tableau.solve (s.record .initial a.tableau)).session⟩) ∨
    ∃ outcome b, BasisInverse.ofColumns a.canonical.tableau
        (a.tableau.solve (s.record .initial a.tableau)).tableau.basis a.tolerances.general = .ok b ∧
      a.reoptimize s = ⟨.ok outcome,
        { a with tableau := (a.tableau.solve (s.record .initial a.tableau)).tableau, basis := b },
        (a.tableau.solve (s.record .initial a.tableau)).session⟩ := by
  unfold reoptimize
  cases hresult : (a.tableau.solve (s.record .initial a.tableau)).result with
  | error e =>
    simp only [hresult]
    exact .inl ⟨e, rfl⟩
  | ok outcome =>
    simp only [hresult]
    cases hbasis : BasisInverse.ofColumns a.canonical.tableau
        (a.tableau.solve (s.record .initial a.tableau)).tableau.basis a.tolerances.general with
    | error e => exact .inl ⟨e, rfl⟩
    | ok b => exact .inr ⟨_, b, rfl, rfl⟩

theorem consistent_reoptimize (hcanonical : a.canonical.Sized)
    (htableau : a.tableau.HasShape a.canonical.nrRows a.canonical.nrColumns)
    (hbasis : ∀ e, (a.reoptimize s).result = .error e → a.basis.HasShape a.canonical.nrRows a.canonical.nrColumns) :
    (a.reoptimize s).analyzer.Consistent := by
  have hsolved := htableau.solve (s.record .initial a.tableau)
  rcases a.reoptimize_cases s with ⟨e, hrun⟩ | ⟨outcome, b, hb, hrun⟩
  -- only after an error does the old basis have to fit, as it is kept
  · have hkept := hbasis e (by rw [hrun])
    rw [hrun]
    exact ⟨hcanonical, hsolved, hkept⟩
  · rw [hrun]
    exact ⟨hcanonical, hsolved,
      BasisInverse.hasShape_ofColumns hcanonical.tableau hsolved.length_basis hsolved.basis_lt hb⟩

/-! ### Building -/

theorem consistent_ofTableau {c : CanonicalForm α} {t : Tableau α} {tolerances : Tolerances α} (hc : c.Sized)
    (ht : t.HasShape c.nrRows c.nrColumns) (hok : ofTableau c t tolerances = .ok a) : a.Consistent := by
  unfold ofTableau at hok
  split_ifs at hok
  cases hbasis : BasisInverse.ofTableau t c.tableau tolerances.unit tolerances.general with
  | error e =>
    rw [hbasis] at hok
    cases hok
  | ok b =>
    rw [hbasis] at hok
    obtain rfl := Except.ok.inj hok
    exact ⟨hc, ht, BasisInverse.hasShape_ofTableau ht hc.tableau hbasis⟩

theorem consistent_ofModel (hdomains : m.domains.length = m.nrVariables)
    (hok : (ofModel m s).1 = .ok (.optimal a)) : a.Consistent := by
  have hc := CanonicalForm.sized_ofModel hdomains
  have ht := hc.tableau.solve (s.record .initial (CanonicalForm.ofModel m).tableau)
  exact consistent_ofTableau hc ht (ofTableau_of_ofModel hok)

/-! ### One request -/

namespace Consistent

/-- The requests that change a value of the problem: the sizes stay, and the tableau is built from the basis. -/
theorem rebuild_reoptimize (h : a.Consistent) {c : CanonicalForm α} (hc : c.Sized)
    (hshape : c.tableau.HasShape a.canonical.nrRows a.canonical.nrColumns) (s : Session α) :
    (({ a with canonical := c } : Analyzer α).rebuild.reoptimize s).analyzer.Consistent := by
  have hbasis : a.basis.HasShape c.nrRows c.nrColumns := by
    rw [← hc.tableau.nrRows_eq, ← hc.tableau.nrColumns_eq, hshape.nrRows_eq, hshape.nrColumns_eq]
    exact h.basis
  exact consistent_reoptimize hc (hbasis.tableau hc.tableau _) fun _ _ => hbasis

theorem changeCost (h : a.Consistent) (variableIndex : ℕ) (cost : α) (s : Session α) :
    (a.changeCost variableIndex cost s).analyzer.Consistent := by
  unfold Analyzer.changeCost
  split
  · exact h
  · exact h.rebuild_reoptimize (h.canonical.setCost _ _) (h.canonical.hasShape_setCost _ _) s

theorem changeRhs (h : a.Consistent) (index : ℕ) (rhs : α) (s : Session α) :
    (a.changeRhs index rhs s).analyzer.Consistent := by
  unfold Analyzer.changeRhs
  split
  · exact h
  · exact h.rebuild_reoptimize (h.canonical.setRhs _ _) (h.canonical.hasShape_setRhs _ _) s

theorem changeCoefficient (h : a.Consistent) (index variableIndex : ℕ) (v : α) (s : Session α) :
    (a.changeCoefficient index variableIndex v s).analyzer.Consistent := by
  unfold Analyzer.changeCoefficient
  split
  · exact h
  · split
    · exact h
    · split
      · exact h
      · exact h.rebuild_reoptimize (h.canonical.setCoefficient _ _ _) (h.canonical.hasShape_setCoefficient _ _ _) s

theorem addActivity (h : a.Consistent) (cost : α) (coefficients : List α) (s : Session α) :
    (a.addActivity cost coefficients s).analyzer.Consistent := by
  unfold Analyzer.addActivity
  split_ifs
  · exact h
  · have hcanonical := h.canonical.addVariable cost coefficients
    have hcolumns : (a.canonical.addVariable cost coefficients).nrColumns = a.canonical.nrColumns + 1 :=
      (h.canonical.hasShape_addVariable cost coefficients).nrColumns_eq
    refine consistent_reoptimize hcanonical ?_ fun e _ => ?_
    · rw [hcolumns]
      refine h.tableau.addColumn ?_
      rw [List.length_cons, h.basis.length_transform]
    -- the rows stay, so that the old basis fits also with the new column
    · rw [hcolumns]
      exact h.basis.mono (Nat.le_succ _)

theorem addConstraint (h : a.Consistent) (coefficients : List α) (relation : Relation) (rhs : α)
    (hok : coefficients.length = a.canonical.nrVariables →
      ∀ e, (a.addConstraint coefficients relation rhs s).result ≠ .error e) :
    (a.addConstraint coefficients relation rhs s).analyzer.Consistent := by
  unfold Analyzer.addConstraint at hok ⊢
  split_ifs at hok ⊢ with hlen
  · exact h
  · have hshape := h.canonical.hasShape_addConstraint coefficients relation rhs
    have hcanonical := h.canonical.addConstraint coefficients relation rhs
    -- canonical form and tableau get the same rows, whether they can be solved or not
    have htableau := h.tableau.addConstraint
      (Placement.length_spread a.canonical.placements a.canonical.nrColumns coefficients).le relation rhs
    rw [← hshape.nrRows_eq, hcanonical.tableau.nrRows_eq, ← hshape.nrColumns_eq, hcanonical.tableau.nrColumns_eq]
      at htableau
    exact consistent_reoptimize hcanonical htableau fun e he => absurd he (hok (not_not.mp hlen) e)

theorem apply (h : a.Consistent) (hr : ¬r.FailsAfterRows a s) : (r.apply a s).analyzer.Consistent := by
  cases r with
  | setCost variableIndex value => exact h.changeCost variableIndex value s
  | setRhs index value => exact h.changeRhs index value s
  | setCoefficient index variableIndex value => exact h.changeCoefficient index variableIndex value s
  | addActivity cost coefficients => exact h.addActivity cost coefficients s
  | addConstraint coefficients relation rhs =>
    exact h.addConstraint coefficients relation rhs fun hlen e he =>
      hr ⟨coefficients, relation, rhs, e, rfl, hlen, he⟩

end Consistent

theorem SizesAgree.not_failsAfterRows (h : a.SizesAgree) (happly : (r.apply a s).analyzer.SizesAgree) :
    ¬r.FailsAfterRows a s := by
  rintro ⟨coefficients, relation, rhs, e, rfl, hlen, he⟩
  have hcolumns := happly.length_columns
  rw [Request.apply, Analyzer.addConstraint, if_neg (not_not.mpr hlen)] at he hcolumns
  rcases reoptimize_cases _ s with ⟨e, hrun⟩ | ⟨outcome, b, hb, hrun⟩
  -- the canonical form has the new rows, and the basis is still the old one
  · rw [hrun] at hcolumns
    change a.basis.columns.length = (a.canonical.addConstraint coefficients relation rhs).nrRows at hcolumns
    have hrows := CanonicalForm.Sized.nrRows_addConstraint a.canonical coefficients relation rhs
    have hpos : 0 < relation.halves.length := by cases relation <;> decide
    have hold := h.length_columns
    omega
  · rw [hrun] at he
    cases he

/-! ### Sequences of requests -/

theorem Served.consistent (hdomains : m.domains.length = m.nrVariables) (h : Served m a) : a.Consistent := by
  induction h with
  | start hok => exact consistent_ofModel hdomains hok
  | request r _ hr ih => exact ih.apply hr

/-- The parts of an analyzer stay of one size through all requests, refused or failed ones included, and whatever they
keep as an index or a query looks up is in range. The sizes differ after exactly those requests that fail after they have
appended rows. -/
theorem Served.sizesAgree_apply_iff {direction : Direction} {cost : List α} {rows : List (List α)}
    {relations : List Relation} {rhs : List α} {domains : List VariableDomain}
    (hm : Model.ofData direction cost rows relations rhs domains = .ok m) (h : Served m a) :
    a.Consistent ∧ a.SizesAgree ∧ a.LookupsInRange ∧
      ∀ (r : Request α) (s : Session α), (r.apply a s).analyzer.SizesAgree ↔ ¬r.FailsAfterRows a s := by
  have hconsistent := h.consistent (Model.length_domains_of_ofData hm)
  refine ⟨hconsistent, hconsistent.sizesAgree, hconsistent.lookupsInRange,
    fun r s => ⟨fun happly => ?_, fun hr => ?_⟩⟩
  · exact hconsistent.sizesAgree.not_failsAfterRows happly
  · exact (hconsistent.apply hr).sizesAgree

end Analyzer

/-- A model whose first tableau is optimal. -/
def idleModel : Model ℚ where
  direction := .maximize
  cost := [-1]
  domains := [.nonnegative]
  constraints := [⟨[1], .less, 1⟩]

/-- The analyzer of the model: no pivot was needed, so the slack column is basic. -/
def idleAnalyzer : Analyzer ℚ where
  canonical := .ofModel idleModel
  tableau := (CanonicalForm.ofModel idleModel).tableau
  basis := .identity [1]
  tolerances := ⟨0, 0, 0⟩

/-- A session without tolerances in which no pivot may be made. -/
def Session.withoutPivots : Session ℚ :=
  start { (Settings.standard : Settings ℚ) with tolerances := ⟨0, 0, 0⟩, maxPivots := 0 }

-- The constraint asks for `1 ≤ x`, which takes one pivot: the request fails only in the session without pivots.
theorem Analyzer.Served.sizesAgree_apply_iff_idleModel :
    Model.ofData .maximize [-1] [[1]] [.less] [1] [.nonnegative] = .ok idleModel ∧
    Served idleModel idleAnalyzer ∧ idleAnalyzer.Consistent ∧ idleAnalyzer.SizesAgree ∧ idleAnalyzer.LookupsInRange ∧
    ((Request.addConstraint [1] .greater 1).apply idleAnalyzer .exact).analyzer.SizesAgree ∧
    ¬((Request.addConstraint [1] .greater 1).apply idleAnalyzer .withoutPivots).analyzer.SizesAgree := by
  have hdata : Model.ofData .maximize [-1] [[1]] [.less] [1] [.nonnegative] = .ok idleModel := by decide +kernel
  have hstart : Served idleModel idleAnalyzer := .start (s := .exact) (by decide +kernel)
  have hsolved : ((Request.addConstraint [1] .greater 1).apply idleAnalyzer .exact).result.isOk := by decide +kernel
  have hstopped : ((Request.addConstraint [1] .greater 1).apply idleAnalyzer .withoutPivots).result =
      .error (.pivotLimit 0) := by decide +kernel
  obtain ⟨hconsistent, hsizes, hlookups, hiff⟩ := Served.sizesAgree_apply_iff hdata hstart
  refine ⟨hdata, hstart, hconsistent, hsizes, hlookups, (hiff _ _).mpr ?_, fun hagree => (hiff _ _).mp hagree ?_⟩
  · rintro ⟨coefficients, relation, rhs, e, -, -, he⟩
    rw [he] at hsolved
    cases hsolved
  · exact ⟨[1], .greater, 1, .pivotLimit 0, rfl, rfl, hstopped⟩

-- The second constraint has a row, but there is no price for it.
theorem Analyzer.exists_not_sizesAgree :
    (Analyzer.ofModel idleModel .withoutPivots).1 = .ok (.optimal idleAnalyzer) ∧
      let changed := idleAnalyzer.addConstraint [1] .greater 1 .withoutPivots
      changed.result = .error (.pivotLimit 0) ∧ ¬changed.analyzer.SizesAgree ∧
      changed.analyzer.canonical.nrRows = 2 ∧ changed.analyzer.tableau.nrRows = 2 ∧
      changed.analyzer.basis.columns = [1] ∧ changed.analyzer.basis.inverse.nrRows = 1 ∧
      changed.analyzer.canonical.constraintRows 1 = [(1, -1)] ∧ changed.analyzer.shadowPrices.length = 1 := by
  refine ⟨by decide +kernel, by decide +kernel, fun h => ?_, by decide +kernel, by decide +kernel, by decide +kernel,
    by decide +kernel, by decide +kernel, by decide +kernel⟩
  exact absurd h.length_columns (by decide +kernel)

end LinearProgramming
