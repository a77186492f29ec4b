import LinearProgramming.Proofs.BasisInverse.Extend
import LinearProgramming.Proofs.CanonicalForm.EditSequence
import LinearProgramming.Proofs.Simplex.Relaxation
import LinearProgramming.Sensitivity.Change

/-! # Correctness of changes to an analyzed problem

An analyzer keeps three copies of its problem: the canonical form, the current tableau and the inverse of a basis.
`Analyzer.Tracks` says that all three belong to one model. Each change updates the copies by formulas of its own. In
every case the new tableau writes the new canonical form in a basis (`rewrites_rebuild`,
`BasisInverse.Inverts.rewrites_addColumn` and `Tableau.Rewrites.addConstraint`), which is all that solving again
needs (`reoptimize_spec`). So the outcomes are right after any sequence of changes (`Change.verdict_apply`). -/

namespace LinearProgramming

open Finset

variable {a : Analyzer ℚ} {m : Model ℚ} {s : Session ℚ} {outcome : Outcome (Solution ℚ)}

/-- The copies of the problem that an analyzer keeps are copies of the model. -/
structure Analyzer.Tracks (a : Analyzer ℚ) (m : Model ℚ) : Prop where
  valid : m.Valid
  represents : a.canonical.Represents m
  rewrites : a.canonical.tableau.Rewrites a.tableau
  unitAt : a.tableau.UnitAt a.basis.columns
  inverts : a.basis.Inverts a.canonical.tableau
  general_eq : a.tolerances.general = 0

/-! ### Solving again -/

/-- A tableau of the canonical form is solved with a correct outcome, after which the copies agree. The basis that the
analyzer had before plays no role. -/
theorem Analyzer.reoptimize_spec (hm : m.Valid) (hrep : a.canonical.Represents m)
    (hrew : a.canonical.tableau.Rewrites a.tableau) (htol : a.tolerances.general = 0) (hs : s.tolerance = 0)
    (hok : (a.reoptimize s).result = .ok outcome) : m.Verdict outcome ∧ (a.reoptimize s).analyzer.Tracks m := by
  have hs' : (s.record .initial a.tableau).tolerance = 0 := by rw [Session.tolerance_record, hs]
  have hrun := hrew.trans (Tableau.startsAt_solve hrew.atBasis hs').rewrites
  obtain ⟨b, hb, hcolumns, hinverts⟩ := hrun.atBasis.unitAt.ofColumns hrun.equivalent
  unfold Analyzer.reoptimize at hok ⊢
  cases hres : (a.tableau.solve (s.record .initial a.tableau)).result with
  | error e =>
    simp only [hres] at hok
    cases hok
  | ok found =>
    have hend := Tableau.solveEnd_solve hrew.atBasis hs' hres
    simp only [hres, htol, hb, Except.ok.injEq] at hok ⊢
    subst hok
    refine ⟨hrep.verdict_solution hm hrun hend, hm, hrep, hrun, ?_, hinverts, htol⟩
    rw [hcolumns]
    exact hrun.atBasis.unitAt

/-- The basis that is found need not be that of the tableau, but its columns are unit vectors as well. -/
theorem Analyzer.tracks_ofTableau {c : CanonicalForm ℚ} {t : Tableau ℚ} {tolerances : Tolerances ℚ} (hm : m.Valid)
    (hrep : c.Represents m) (hrew : c.tableau.Rewrites t) (hunit : tolerances.unit = 0)
    (hgeneral : tolerances.general = 0) (hok : Analyzer.ofTableau c t tolerances = .ok a) : a.Tracks m := by
  unfold Analyzer.ofTableau at hok
  split_ifs at hok
  rw [hunit, hgeneral, BasisInverse.ofTableau] at hok
  cases hfind : t.findBasis 0 with
  | error e =>
    rw [hfind] at hok
    cases hok
  | ok columns =>
    have hcolumns := Tableau.unitAt_findBasis hfind
    obtain ⟨b, hb, rfl, hinverts⟩ := hcolumns.ofColumns hrew.equivalent
    simp only [hfind, hb, Except.map, Except.ok.injEq] at hok
    subst hok
    exact ⟨hm, hrep, hrew, hcolumns, hinverts, hgeneral⟩

/-- The analyzer of a model is that of the tableau that solving the relaxation ends with. -/
theorem Analyzer.ofTableau_of_ofModel {α : Type} [Scalar α] {m : Model α} {a : Analyzer α} {s : Session α}
    (hok : (Analyzer.ofModel m s).1 = .ok (.optimal a)) :
    Analyzer.ofTableau (CanonicalForm.ofModel m) ((CanonicalForm.ofModel m).tableau.solve
      (s.record .initial (CanonicalForm.ofModel m).tableau)).tableau s.settings.tolerances = .ok a := by
  unfold Analyzer.ofModel at hok
  cases hres : ((CanonicalForm.ofModel m).tableau.solve
      (s.record .initial (CanonicalForm.ofModel m).tableau)).result with
  | error e => simp [hres] at hok
  | ok found =>
    cases found with
    | infeasible => simp [hres] at hok
    | unbounded => simp [hres] at hok
    | optimal values =>
      simp only [hres] at hok
      cases hanalyzer : Analyzer.ofTableau (CanonicalForm.ofModel m) ((CanonicalForm.ofModel m).tableau.solve
          (s.record .initial (CanonicalForm.ofModel m).tableau)).tableau s.settings.tolerances with
      | error e =>
        rw [hanalyzer] at hok
        cases hok
      | ok found =>
        rw [hanalyzer] at hok
        rw [Outcome.optimal.inj (Except.ok.inj hok)]

theorem Analyzer.tracks_ofModel (hm : m.Valid) (hunit : s.settings.tolerances.unit = 0)
    (hgeneral : s.settings.tolerances.general = 0) (hok : (Analyzer.ofModel m s).1 = .ok (.optimal a)) :
    a.Tracks m := by
  have hs' : (s.record .initial (CanonicalForm.ofModel m).tableau).tolerance = 0 := by
    rw [Session.tolerance_record]
    exact hgeneral
  have hrep := CanonicalForm.represents_ofModel hm
  have hrun := (Tableau.startsAt_solve hrep.atBasis hs').rewrites
  exact Analyzer.tracks_ofTableau hm hrep hrun hunit hgeneral (Analyzer.ofTableau_of_ofModel hok)

/-! ### The inverse of an edited form -/

section

variable {c : CanonicalForm ℚ} {b : BasisInverse ℚ}

theorem CanonicalForm.Represents.inverts_setCost (h : c.Represents m) (hb : b.Inverts c.tableau) (v : ℕ) (cost : ℚ) :
    b.Inverts (c.setCost v cost).tableau :=
  hb.of_entry_eq (h.nrRows_setCost v cost) (h.nrColumns_setCost v cost).ge
    fun i _ j _ => CanonicalForm.matrix_entry_succ_setCost v cost i j

theorem CanonicalForm.Represents.inverts_setRhs (h : c.Represents m) (hb : b.Inverts c.tableau) (index : ℕ) (rhs : ℚ) :
    b.Inverts (c.setRhs index rhs).tableau :=
  hb.of_entry_eq (h.nrRows_setRhs index rhs) (h.nrColumns_setRhs index rhs).ge
    fun _ _ _ hj => CanonicalForm.matrix_entry_setRhs_of_lt index rhs hj

/-- A coefficient enters the basis matrix unless the variable has no column in the basis. -/
theorem CanonicalForm.Represents.inverts_setCoefficient (h : c.Represents m) (hb : b.Inverts c.tableau) {v : ℕ}
    (hfree : ∀ r ∈ c.columnsOf v, r.1 ∉ b.columns) (index : ℕ) (value : ℚ) :
    b.Inverts (c.setCoefficient index v value).tableau := by
  refine hb.of_columns_eq (h.nrRows_setCoefficient index v value) (h.nrColumns_setCoefficient index v value).ge
    fun i _ j hj => ?_
  refine CanonicalForm.matrix_entry_setCoefficient_of_notMem index v value fun _ _ _ _ r hr => ?_
  rintro rfl
  exact hfree r hr hj

end

theorem Analyzer.rewrites_rebuild (hrep : a.canonical.Represents m) (hinverts : a.basis.Inverts a.canonical.tableau) :
    a.rebuild.canonical.tableau.Rewrites a.rebuild.tableau :=
  hinverts.rewrites_tableau hrep.atBasis.wellFormed (fun _ hj => a.canonical.getD_canonicalCost hj)
    hrep.objectiveValue_eq

/-! ### One change -/

namespace Analyzer.Tracks

variable (h : a.Tracks m) (hs : s.tolerance = 0)
include h hs

theorem addActivity {cost : ℚ} {coefficients : List ℚ}
    (hok : (a.addActivity cost coefficients s).result = .ok outcome) :
    (m.addVariable cost coefficients).Verdict outcome ∧
      (a.addActivity cost coefficients s).analyzer.Tracks (m.addVariable cost coefficients) := by
  unfold Analyzer.addActivity at hok ⊢
  split_ifs at hok ⊢ with hne
  · cases hok
  · have hlen : coefficients.length = m.nrConstraints := (not_not.mp hne).trans h.represents.nrConstraints_eq
    have hrep := h.represents.addVariable h.valid hlen cost
    refine reoptimize_spec (h.valid.addVariable cost coefficients) hrep ?_ h.general_eq hs hok
    exact h.inverts.rewrites_addColumn h.represents.atBasis.wellFormed h.rewrites h.unitAt
      h.represents.objectiveValue_eq (fun _ hj => a.canonical.getD_canonicalCost hj)
      (h.represents.length_newColumn cost coefficients)
      fun _ hj => (a.canonical.addVariable cost coefficients).getD_canonicalCost hj

theorem changeCost {v : ℕ} {cost : ℚ} (hok : (a.changeCost v cost s).result = .ok outcome) :
    (m.setCost v cost).Verdict outcome ∧ (a.changeCost v cost s).analyzer.Tracks (m.setCost v cost) := by
  unfold Analyzer.changeCost at hok ⊢
  cases hcolumn : a.variableColumn v with
  | error e =>
    rw [hcolumn] at hok
    cases hok
  | ok column =>
    have hrep := h.represents.setCost v cost
    have hinverts := h.represents.inverts_setCost h.inverts v cost
    simp only [hcolumn] at hok ⊢
    exact reoptimize_spec (h.valid.setCost v cost) hrep (rewrites_rebuild hrep hinverts) h.general_eq hs hok

theorem changeRhs {index : ℕ} {rhs : ℚ} (hok : (a.changeRhs index rhs s).result = .ok outcome) :
    (m.setRhs index rhs).Verdict outcome ∧ (a.changeRhs index rhs s).analyzer.Tracks (m.setRhs index rhs) := by
  unfold Analyzer.changeRhs at hok ⊢
  cases hrows : a.rowsOf index with
  | error e =>
    rw [hrows] at hok
    cases hok
  | ok rows =>
    have hrep := h.represents.setRhs index rhs
    have hinverts := h.represents.inverts_setRhs h.inverts index rhs
    simp only [hrows] at hok ⊢
    exact reoptimize_spec (h.valid.setRhs index rhs) hrep (rewrites_rebuild hrep hinverts) h.general_eq hs hok

theorem addConstraint {coefficients : List ℚ} {relation : Relation} {rhs : ℚ}
    (hok : (a.addConstraint coefficients relation rhs s).result = .ok outcome) :
    (m.addConstraint coefficients relation rhs).Verdict outcome ∧
      (a.addConstraint coefficients relation rhs s).analyzer.Tracks (m.addConstraint coefficients relation rhs) := by
  unfold Analyzer.addConstraint at hok ⊢
  split_ifs at hok ⊢ with hne
  · cases hok
  · have hlen : coefficients.length = m.nrVariables := (not_not.mp hne).trans h.represents.length_placements
    have hrow : (a.canonical.canonicalCoefficients coefficients).length ≤ a.canonical.tableau.nrColumns := by
      rw [CanonicalForm.canonicalCoefficients, Placement.length_spread]
      exact le_rfl
    exact reoptimize_spec (h.valid.addConstraint hlen relation rhs) (h.represents.addConstraint hlen relation rhs)
      (h.rewrites.addConstraint h.represents.atBasis hrow relation rhs) h.general_eq hs hok

end Analyzer.Tracks

/-! ### Sequences of changes -/

/-- A change that is asked of an analyzer, in a session of its own. -/
inductive Analyzer.Request (α : Type)
  | setCost (variableIndex : ℕ) (value : α)
  | setRhs (index : ℕ) (value : α)
  | setCoefficient (index variableIndex : ℕ) (value : α)
  | addActivity (cost : α) (coefficients : List α)
  | addConstraint (coefficients : List α) (relation : Relation) (rhs : α)

def Analyzer.Request.apply {α : Type} [Scalar α] (a : Analyzer α) (s : Session α) : Request α → Changed α
  | .setCost variableIndex value => a.changeCost variableIndex value s
  | .setRhs index value => a.changeRhs index value s
  | .setCoefficient index variableIndex value => a.changeCoefficient index variableIndex value s
  | .addActivity cost coefficients => a.addActivity cost coefficients s
  | .addConstraint coefficients relation rhs => a.addConstraint coefficients relation rhs s

/-- A change of the problem that an analyzer solves again for. A coefficient is not among them: it may be that of a
basic variable. -/
inductive Change
  | setCost (variableIndex : ℕ) (value : ℚ)
  | setRhs (index : ℕ) (value : ℚ)
  | addActivity (cost : ℚ) (coefficients : List ℚ)
  | addConstraint (coefficients : List ℚ) (relation : Relation) (rhs : ℚ)

namespace Change

def toRequest : Change → Analyzer.Request ℚ
  | setCost variableIndex value => .setCost variableIndex value
  | setRhs index value => .setRhs index value
  | addActivity cost coefficients => .addActivity cost coefficients
  | addConstraint coefficients relation rhs => .addConstraint coefficients relation rhs

def toEdit : Change → Edit
  | setCost variableIndex value => .setCost variableIndex value
  | setRhs index value => .setRhs index value
  | addActivity cost coefficients => .addVariable cost coefficients
  | addConstraint coefficients relation rhs => .addConstraint coefficients relation rhs

def apply (a : Analyzer ℚ) (s : Session ℚ) (c : Change) : Changed ℚ := c.toRequest.apply a s

def edit (m : Model ℚ) (c : Change) : Model ℚ := c.toEdit.onModel m

end Change

/-- The analyzer was built from the first model, and all changes since were made in the second model as well. Each of
them had an outcome, which need not be an optimum, and may have used a session of its own. -/
inductive Analyzer.Reached (first : Model ℚ) : Model ℚ → Analyzer ℚ → Prop
  | start {a : Analyzer ℚ} {s : Session ℚ} : s.settings.tolerances.unit = 0 → s.settings.tolerances.general = 0 →
      (Analyzer.ofModel first s).1 = .ok (.optimal a) → Reached first first a
  | change {m : Model ℚ} {a : Analyzer ℚ} {s : Session ℚ} {outcome : Outcome (Solution ℚ)} (c : Change) :
      Reached first m a → s.settings.tolerances.general = 0 → (c.apply a s).result = .ok outcome →
      Reached first (c.edit m) (c.apply a s).analyzer

theorem Analyzer.Tracks.apply (h : a.Tracks m) (hs : s.tolerance = 0) {c : Change}
    (hok : (c.apply a s).result = .ok outcome) :
    (c.edit m).Verdict outcome ∧ (c.apply a s).analyzer.Tracks (c.edit m) := by
  cases c with
  | setCost variableIndex value => exact h.changeCost hs hok
  | setRhs index value => exact h.changeRhs hs hok
  | addActivity cost coefficients => exact h.addActivity hs hok
  | addConstraint coefficients relation rhs => exact h.addConstraint hs hok

theorem Analyzer.tracks_of_reached {first : Model ℚ} (hfirst : first.Valid) (h : Analyzer.Reached first m a) :
    a.Tracks m := by
  induction h with
  | start hunit hgeneral hok => exact Analyzer.tracks_ofModel hfirst hunit hgeneral hok
  | change c _ hs hok ih => exact (ih.apply hs hok).2

/-- After any sequence of changes, the outcome of one more change is right for the model with all of them. In
particular, it agrees with every outcome of solving that model anew. -/
theorem Change.verdict_apply {direction : Direction} {cost : List ℚ} {rows : List (List ℚ)}
    {relations : List Relation} {rhs : List ℚ} {domains : List VariableDomain} {first : Model ℚ}
    (hfirst : Model.ofData direction cost rows relations rhs domains = .ok first)
    (hreached : Analyzer.Reached first m a) (c : Change) (hs : s.settings.tolerances.general = 0)
    (hok : (c.apply a s).result = .ok outcome) :
    (c.edit m).Verdict outcome ∧
      ∀ (fresh : Session ℚ) (anew : Outcome (Solution ℚ)), fresh.settings.tolerances.general = 0 →
        ((c.edit m).solveRelaxation fresh).1 = .ok anew →
        anew.map (·.objectiveValue) = outcome.map (·.objectiveValue) := by
  obtain ⟨hverdict, htracks⟩ := (Analyzer.tracks_of_reached (Model.valid_of_ofData hfirst) hreached).apply hs hok
  refine ⟨hverdict, fun fresh anew hfresh hanew => ?_⟩
  have hrep := CanonicalForm.represents_ofModel htracks.valid
  exact (CanonicalForm.verdict_solve hrep htracks.valid hfresh hanew).map_objectiveValue_eq hverdict

def Changed.status (c : Changed ℚ) : Except Error (Outcome ℚ) := c.result.map (·.map (·.objectiveValue))

theorem Changed.exists_of_status {c : Changed ℚ} {status : Outcome ℚ} (h : c.status = .ok status) :
    ∃ outcome, c.result = .ok outcome ∧ outcome.map (·.objectiveValue) = status := by
  unfold Changed.status at h
  cases hres : c.result with
  | error e => simp [hres, Except.map] at h
  | ok outcome =>
    rw [hres] at h
    exact ⟨outcome, rfl, Except.ok.inj h⟩

/-- A model that becomes infeasible when its first right hand side is negative. -/
def capacityModel : Model ℚ where
  direction := .maximize
  cost := [3, 2]
  domains := [.nonnegative, .free]
  constraints := [⟨[1, 1], .less, 4⟩, ⟨[1, 3], .less, 6⟩, ⟨[0, 1], .greater, 0⟩]

def capacityAnalyzer? : Option (Analyzer ℚ) :=
  match (Analyzer.ofModel capacityModel .exact).1 with
  | .ok (.optimal a) => some a
  | _ => none

-- The first change makes the model infeasible, and the second one feasible again.
theorem Change.verdict_apply_capacityModel :
    Model.ofData .maximize [3, 2] [[1, 1], [1, 3], [0, 1]] [.less, .less, .greater] [4, 6, 0] [.nonnegative, .free] =
      .ok capacityModel ∧
    ∃ a, Analyzer.Reached capacityModel capacityModel a ∧
      let first := (Change.setRhs 0 (-1)).apply a .exact
      let second := (Change.addActivity 5 [-1, 2, 0]).apply first.analyzer .exact
      first.status = .ok .infeasible ∧ second.status = .ok (.optimal (47 / 3)) ∧
      ∃ outcome, second.result = .ok outcome ∧
        ((capacityModel.setRhs 0 (-1)).addVariable 5 [-1, 2, 0]).Verdict outcome := by
  have hdata : Model.ofData .maximize [3, 2] [[1, 1], [1, 3], [0, 1]] [.less, .less, .greater] [4, 6, 0]
      [.nonnegative, .free] = .ok capacityModel := by decide +kernel
  have hsome : capacityAnalyzer?.isSome := by decide +kernel
  have hfirst : ∀ a ∈ capacityAnalyzer?, ((Change.setRhs 0 (-1)).apply a .exact).status = .ok .infeasible := by
    decide +kernel
  have hsecond : ∀ a ∈ capacityAnalyzer?,
      ((Change.addActivity 5 [-1, 2, 0]).apply ((Change.setRhs 0 (-1)).apply a .exact).analyzer .exact).status =
        .ok (.optimal (47 / 3)) := by
    decide +kernel
  obtain ⟨a, ha⟩ := Option.isSome_iff_exists.mp hsome
  have hok : (Analyzer.ofModel capacityModel .exact).1 = .ok (.optimal a) := by
    unfold capacityAnalyzer? at ha
    split at ha
    · next found hfound => rw [hfound, Option.some.inj ha]
    · cases ha
  have hstart : Analyzer.Reached capacityModel capacityModel a := .start rfl rfl hok
  obtain ⟨outcome, hres, -⟩ := Changed.exists_of_status (hfirst a ha)
  obtain ⟨outcome', hres', -⟩ := Changed.exists_of_status (hsecond a ha)
  have hverdict := Change.verdict_apply hdata (.change (.setRhs 0 (-1)) hstart rfl hres)
    (.addActivity 5 [-1, 2, 0]) rfl hres'
  exact ⟨hdata, a, hstart, hfirst a ha, hsecond a ha, outcome', hres', hverdict.1⟩

end LinearProgramming
