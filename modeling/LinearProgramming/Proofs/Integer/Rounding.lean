import LinearProgramming.Proofs.Integer.BranchAndBound
import LinearProgramming.Proofs.Integer.Separation

/-! # Rounded solutions

The integer methods accept values that are within the tolerance of an integer and round them at the end.
`Solution.Rounds` says what becomes of the values of the last tableau. Branch and bound looks at the variables of the
basic columns, and all others are zero. Cutting planes look at the rows instead, which is the same as long as each
variable is a column; a method that refuses other models can rely on that (`CanonicalForm.Represents.exists_direct`). So
both round all variables that they look for integers of, whatever the tolerance and the limits are
(`Model.rounds_of_optimal`). -/

namespace LinearProgramming

variable {c : CanonicalForm ℚ} {m : Model ℚ} {t : Tableau ℚ} {s s' : Session ℚ} {ε : ℚ} {v : ℕ}

/-! ### The values of a run -/

namespace Tableau

variable {α : Type} [Scalar α]

theorem primalMove_eq_stop {t : Tableau α} {rule : EnteringRule} {smallestIndex : Bool} {ε : α} {values : List α}
    (h : t.primalMove rule smallestIndex ε = .stop (.optimal values)) : values = t.basicSolution := by
  unfold primalMove at h
  split at h
  · cases h
    rfl
  · split at h <;> cases h

theorem values_primalLoop (rule : EnteringRule) (remaining degenerate : ℕ) (t : Tableau α) (s : Session α)
    {values : List α} (h : (primalLoop rule remaining degenerate t s).result = .ok (.optimal values)) :
    values = (primalLoop rule remaining degenerate t s).tableau.basicSolution := by
  fun_induction primalLoop rule remaining degenerate t s with
  | case1 remaining degenerate t s outcome hmove =>
    obtain rfl := Except.ok.inj h
    exact primalMove_eq_stop hmove
  | case2 => cases h
  | case3 remaining t s row column hmove remaining next unchanged ih => exact ih h

theorem values_solve (t : Tableau α) (s : Session α) {values : List α}
    (h : (t.solve s).result = .ok (.optimal values)) : values = (t.solve s).tableau.basicSolution := by
  obtain ⟨heq, hnot⟩ | ⟨-, -, heq⟩ := t.solve_cases s
  · rw [heq] at h
    exact absurd h (hnot values)
  · rw [heq] at h ⊢
    exact values_primalLoop _ _ _ _ _ h

end Tableau

/-! ### Rounding -/

/-- The value of a variable in the last tableau of a solution. -/
def Solution.tableauValue (c : CanonicalForm ℚ) (best : Solution ℚ) (v : ℕ) : ℚ :=
  (c.modelValues best.tableau.basicSolution).getD v 0

/-- The variables that integers are looked for have the nearest integers to their values in the last tableau, which are
within the tolerance, and the others have these values themselves. -/
structure Solution.Rounds (c : CanonicalForm ℚ) (m : Model ℚ) (ε : ℚ) (best : Solution ℚ) : Prop where
  length_values : best.values.length = m.nrVariables
  integer : ∀ v < m.nrVariables, m.integerVariables = [] ∨ v ∈ m.integerVariables →
    (∃ z : ℤ, best.values.getD v 0 = z) ∧ best.values.getD v 0 = Scalar.round (best.tableauValue c v) ∧
      |best.tableauValue c v - best.values.getD v 0| ≤ ε
  other : ∀ v < m.nrVariables, m.integerVariables ≠ [] → v ∉ m.integerVariables →
    best.values.getD v 0 = best.tableauValue c v

theorem Scalar.snap_of_isIntegral {a : ℚ} (h : Scalar.isIntegral a ε = true) :
    (∃ z : ℤ, Scalar.snap a ε = z) ∧ Scalar.snap a ε = Scalar.round a ∧ |a - Scalar.snap a ε| ≤ ε := by
  have hsnap : Scalar.snap a ε = Scalar.round a := if_pos h
  rw [hsnap]
  rw [Scalar.isIntegral, decide_eq_true_iff, Scalar.abs_eq] at h
  exact ⟨Scalar.exists_int_round a, rfl, h⟩

namespace CanonicalForm

theorem getD_snap (c : CanonicalForm ℚ) (t : Tableau ℚ) (integers : List ℕ) (ε : ℚ) (hv : v < c.placements.length) :
    ((c.solution t t.basicSolution).snap integers ε).values.getD v 0 =
      if integers.contains v then Scalar.snap ((c.modelValues t.basicSolution).getD v 0) ε
      else (c.modelValues t.basicSolution).getD v 0 := by
  have hv' : v < (c.modelValues t.basicSolution).length := by
    rw [modelValues, List.length_map]
    exact hv
  simp only [Solution.snap, solution]
  rw [List.getD_eq_getElem _ _ (by rw [List.length_mapIdx]; exact hv'), List.getElem_mapIdx,
    List.getD_eq_getElem _ _ hv']

theorem Represents.rounds (h : c.Represents m) {integers : List ℕ}
    (hintegers : ∀ v, v ∈ integers ↔ v < m.nrVariables ∧ (m.integerVariables = [] ∨ v ∈ m.integerVariables))
    (hintegral : ∀ v ∈ integers, Scalar.isIntegral ((c.modelValues t.basicSolution).getD v 0) ε = true) :
    ((c.solution t t.basicSolution).snap integers ε).Rounds c m ε := by
  refine ⟨?_, fun v hv hsearched => ?_, fun v hv hsome hother => ?_⟩
  · simp only [Solution.snap, solution]
    rw [List.length_mapIdx, modelValues, List.length_map, h.length_placements]
  · have hmem : v ∈ integers := (hintegers v).mpr ⟨hv, hsearched⟩
    rw [getD_snap c t integers ε (h.length_placements.symm ▸ hv), if_pos (by simpa using hmem)]
    exact Scalar.snap_of_isIntegral (hintegral v hmem)
  · have hmem : v ∉ integers := fun hmem => ((hintegers v).mp hmem).2.elim hsome hother
    rw [getD_snap c t integers ε (h.length_placements.symm ▸ hv), if_neg (by simpa using hmem)]
    rfl

end CanonicalForm

/-! ### Branch and bound -/

namespace CanonicalForm

variable {state : SearchState ℚ} {node : SearchNode ℚ} {rest : List (SearchNode ℚ)} {outcome : Outcome (List ℚ)}

theorem firstFractional?_of_integral {incumbent : Option (Solution ℚ)} {a : ℚ}
    (h : c.resolveNode incumbent t outcome ε = .integral a) : c.firstFractional? t c.searchVariables ε = none := by
  cases outcome with
  | infeasible => cases h
  | unbounded => cases h
  | optimal values =>
    simp only [resolveNode] at h
    split_ifs at h
    split at h
    · assumption
    · cases h

theorem incumbent_visitNode {best : Solution ℚ} (h : (c.visitNode state node rest outcome).incumbent = some best) :
    state.incumbent = some best ∨
      ∃ ε, ε = (node.tableau.solve state.session).session.tolerance ∧
        c.firstFractional? (node.tableau.solve state.session).tableau c.searchVariables ε = none ∧
        best = (c.solution (node.tableau.solve state.session).tableau
          (node.tableau.solve state.session).tableau.basicSolution).snap c.searchVariables ε := by
  simp only [visitNode, advance] at h
  split at h
  · next hresolved =>
    refine .inr ⟨_, rfl, firstFractional?_of_integral hresolved, ?_⟩
    rw [Session.tolerance_record] at h
    exact (Option.some.inj h).symm
  · exact .inl h
  · exact .inl h

theorem rounds_of_searches (h : c.Represents m) (hm : m.Valid) (hints : c.integerVariables = m.integerVariables)
    (hc : c.Grown c.tableau) (hε : 0 ≤ s.tolerance) (hstate : c.Searches s state) {best : Solution ℚ}
    (hbest : state.incumbent = some best) : best.Rounds c m s.tolerance := by
  induction hstate generalizing best with
  | start => cases hbest
  | @next state node rest outcome hstate hqueue hresult ih =>
    obtain hold | ⟨ε, hε', hnone, rfl⟩ := incumbent_visitNode hbest
    · exact ih hold
    · have hgrown := (grown_of_searches hc hstate node (hqueue ▸ List.mem_cons_self)).solve state.session
      rw [(node.tableau.passes_solve state.session).1.tolerance_eq, tolerance_of_searches hstate] at hε'
      rw [hε'] at hnone ⊢
      have hmem : ∀ v, v ∈ c.searchVariables ↔
          v < m.nrVariables ∧ (m.integerVariables = [] ∨ v ∈ m.integerVariables) :=
        fun v => mem_searchVariables h hm hints
      refine h.rounds hmem fun v hv => ?_
      exact h.isIntegral_of_firstFractional?_eq_none hgrown.wellFormed hε hnone hv
        (h.length_placements.symm ▸ ((hmem v).mp hv).1)

theorem incumbent_of_report {limitReached : Bool} {best : Solution ℚ}
    (h : (state.report limitReached).outcome = .optimal best) : state.incumbent = some best := by
  unfold SearchState.report at h
  cases hincumbent : state.incumbent with
  | none => simp [hincumbent] at h
  | some found =>
    simp only [hincumbent, Outcome.optimal.injEq] at h
    rw [h]

theorem exists_searches_of_optimal {fuel : ℕ} {report : SearchReport ℚ} {best : Solution ℚ}
    (hstate : c.Searches s state) (hok : (c.searchLoop fuel state).1 = .ok report)
    (hbest : report.outcome = .optimal best) : ∃ last, c.Searches s last ∧ last.incumbent = some best := by
  induction fuel generalizing state with
  | zero => cases hok
  | succ fuel ih =>
    obtain ⟨-, heq⟩ | ⟨-, heq⟩ | ⟨node, -, e, -, heq⟩ | ⟨node, rest, outcome, htakes, hcase⟩ :=
      searchLoop_cases c fuel state
    · rw [heq] at hok
      obtain rfl := Except.ok.inj hok
      exact ⟨state, hstate, incumbent_of_report hbest⟩
    · rw [heq] at hok
      obtain rfl := Except.ok.inj hok
      exact ⟨state, hstate, incumbent_of_report hbest⟩
    · rw [heq] at hok
      cases hok
    · obtain ⟨-, -, heq⟩ | ⟨-, heq⟩ := hcase
      · rw [heq] at hok
        obtain rfl := Except.ok.inj hok
        cases hbest
      · rw [heq] at hok
        exact ih (hstate.next htakes.queue_eq htakes.result_eq) hok

end CanonicalForm

/-! ### Cutting planes -/

theorem Tableau.isIntegral_of_cut?_eq_none {mask : List Bool} {i : ℕ} (h : t.cut? mask ε = none) (hi : i < t.nrRows)
    (hmarked : mask.getD (t.basis.getD i 0) false = true) :
    Scalar.isIntegral (t.rhs i) ε = true := by
  rw [cut?, Option.map_eq_none_iff, List.find?_eq_none] at h
  have hrow := h i (List.mem_range.mpr hi)
  simp only [hmarked, Bool.true_and, Scalar.isPositive_iff, not_lt, Scalar.fractionalPart] at hrow
  by_contra hnot
  rw [if_neg hnot] at hrow
  -- cuts measure the distance to the floor, and the nearest integer is no further away
  have hfloor : |t.rhs i - ⌊t.rhs i⌋| ≤ ε := by
    rw [abs_of_nonneg (sub_nonneg.mpr (Int.floor_le _))]
    exact hrow
  apply hnot
  rw [Scalar.isIntegral, decide_eq_true_iff, Scalar.abs_eq]
  exact (Scalar.abs_sub_round_le _ _).trans hfloor

namespace CanonicalForm

theorem Represents.exists_direct (h : c.Represents m) {integers : List ℕ}
    (hall : deriveIntegerColumns c.tableau c.placements integers = List.replicate c.tableau.nrColumns true)
    (hv : v < c.placements.length) : ∃ j, c.placements[v] = .direct j := by
  obtain ⟨r, hr⟩ := c.placements[v].exists_column
  have hindex : r.1 ∈ c.placements[v].indices := List.mem_map_of_mem hr
  obtain ⟨hlt, hother⟩ := h.notMem_basis hv hindex
  have hmarked : (deriveIntegerColumns c.tableau c.placements integers).getD r.1 false = true := by
    rw [hall, List.getD_replicate _ hlt]
  obtain hdirect | ⟨i, hi, hslack, -⟩ := supports_deriveIntegerColumns h.atBasis _ _ _ hmarked
  · exact ⟨r.1, (h.direct_of_directColumn hv hindex hdirect).2⟩
  · rw [← hslack] at hother
    exact absurd (h.atBasis.unitAt.getD_mem hi) hother

theorem isIntegral_of_direct (hwf : t.WellFormed) (hε : 0 ≤ ε)
    (hnone : t.cut? (List.replicate t.nrColumns true) ε = none) (hv : v < c.placements.length)
    (hdirect : ∃ j, c.placements[v] = .direct j) :
    Scalar.isIntegral ((c.modelValues t.basicSolution).getD v 0) ε = true := by
  obtain ⟨j, hj⟩ := hdirect
  rw [getD_modelValues hv, hj]
  show Scalar.isIntegral (Tableau.ofList t.basicSolution j) ε = true
  obtain ⟨i, hi, hslot, hvalue⟩ | ⟨-, hvalue⟩ := hwf.isBasic_or_eq_zero j
  · rw [hvalue]
    refine Tableau.isIntegral_of_cut?_eq_none hnone hi (List.getD_replicate _ ?_)
    exact hwf.basis_lt _ (Tableau.getD_mem (hwf.basis_length.symm ▸ hi))
  · rw [hvalue]
    exact Scalar.isIntegral_zero hε

theorem mem_integerVariables_of_cutColumns (hm : m.Valid) {columns : List Bool}
    (h : (ofModel m).cutColumns = .ok columns) (hv : v < m.nrVariables) :
    m.integerVariables = [] ∨ v ∈ m.integerVariables := by
  by_cases hempty : m.integerVariables = []
  · exact .inl hempty
  right
  have hpure : (ofModel m).isPureInteger = true := by
    by_contra hmixed
    have hints : (ofModel m).integerVariables.isEmpty = false := by simpa [ofModel] using hempty
    rw [cutColumns, hints, eq_false_of_ne_true hmixed] at h
    cases h
  have hlength : m.integerVariables.length = (List.range m.domains.length).length := by
    rw [List.length_range, hm.length_domains, ← (represents_ofModel hm).length_placements]
    exact beq_iff_eq.mp hpure
  have hall := List.length_filter_eq_length_iff.mp hlength
  have hmem : v ∈ List.range m.domains.length := List.mem_range.mpr (hm.length_domains.symm ▸ hv)
  exact List.mem_filter.mpr ⟨hmem, hall v hmem⟩

theorem rounds_cutLoop (hm : m.Valid) (hε : 0 ≤ s.tolerance) {columns : List Bool}
    (hcolumns : (ofModel m).cutColumns = .ok columns) {remaining nrCuts : ℕ} {mask : List Bool}
    (hround : (ofModel m).Cuts s mask t s') {report : CutReport ℚ} {best : Solution ℚ}
    (hok : ((ofModel m).cutLoop remaining nrCuts mask t s').1 = .ok report) (hbest : report.outcome = .optimal best) :
    best.Rounds (ofModel m) m s.tolerance := by
  have hrep := represents_ofModel hm
  have hgrown := grown_tableau_ofModel m
  fun_induction cutLoop (ofModel m) remaining nrCuts mask t s' with
  | case1 remaining nrCuts mask t s' run e hres => cases hok
  | case2 remaining nrCuts mask t s' run hres =>
    obtain rfl := Except.ok.inj hok
    cases hbest
  | case3 remaining nrCuts mask t s' run hres =>
    obtain rfl := Except.ok.inj hok
    cases hbest
  | case4 remaining nrCuts mask t s' run values hres hnone solution =>
    obtain rfl := Except.ok.inj hok
    obtain rfl := Outcome.optimal.inj hbest
    have hvalues : values = run.tableau.basicSolution := t.values_solve s' hres
    have hwf := ((grown_of_cuts hgrown rfl hround).1.solve s').wellFormed
    obtain ⟨hall, integers, hderived⟩ := cutColumns_eq_ok rfl hcolumns
    rw [hround.mask_eq hgrown rfl, tolerance_of_cuts hround] at hnone
    have hvariables : ∀ v, v ∈ List.range (ofModel m).nrVariables ↔
        v < m.nrVariables ∧ (m.integerVariables = [] ∨ v ∈ m.integerVariables) := by
      intro v
      rw [List.mem_range, nrVariables, hrep.length_placements]
      exact ⟨fun hv => ⟨hv, mem_integerVariables_of_cutColumns hm hcolumns hv⟩, And.left⟩
    show ((ofModel m).solution run.tableau values |>.snap _ s'.tolerance).Rounds _ _ _
    rw [hvalues, tolerance_of_cuts hround]
    refine hrep.rounds hvariables fun v hv => ?_
    have hv' : v < (ofModel m).placements.length := List.mem_range.mp hv
    exact isIntegral_of_direct hwf hε hnone hv' (hrep.exists_direct (hderived.trans hall) hv')
  | case5 => cases hok
  | case6 nrCuts mask t s' run values hres cut hcut remaining next ih => exact ih (hround.next hcut) hok

end CanonicalForm

/-- In exact arithmetic with any tolerance that is not negative and with any limits, whatever branch and bound or
cutting planes report as an optimum has integers for the variables that integers are looked for. They are the nearest
ones to the values in the last tableau, and all other variables have the values of that tableau. -/
theorem Model.rounds_of_optimal {direction : Direction} {cost : List ℚ} {rows : List (List ℚ)}
    {relations : List Relation} {rhs : List ℚ} {domains : List VariableDomain} {m : Model ℚ}
    (hm : Model.ofData direction cost rows relations rhs domains = .ok m) (s : Session ℚ)
    (hε : 0 ≤ s.settings.tolerances.general) (best : Solution ℚ) :
    let c := CanonicalForm.ofModel m
    (∀ unlimited report, (c.branchAndBoundWithin unlimited s).1 = .ok report → report.outcome = .optimal best →
      best.Rounds c m s.settings.tolerances.general) ∧
    ∀ report, (c.cuttingPlane s).1 = .ok report → report.outcome = .optimal best →
      best.Rounds c m s.settings.tolerances.general := by
  intro c
  have hvalid := valid_of_ofData hm
  have hrep : c.Represents m := CanonicalForm.represents_ofModel hvalid
  refine ⟨fun unlimited report hok hbest => ?_, fun report hok hbest => ?_⟩
  · obtain ⟨last, hlast, hincumbent⟩ := CanonicalForm.exists_searches_of_optimal .start hok hbest
    exact CanonicalForm.rounds_of_searches hrep hvalid rfl (CanonicalForm.grown_tableau_ofModel m) hε hlast hincumbent
  · rw [CanonicalForm.cuttingPlane] at hok
    cases hcolumns : c.cutColumns with
    | error e =>
      rw [hcolumns] at hok
      cases hok
    | ok columns =>
      rw [hcolumns] at hok
      exact CanonicalForm.rounds_cutLoop hvalid hε hcolumns (.start hcolumns) hok hbest

/-- Integers with a bound that is almost one, a free variable and a nonpositive one. -/
def eighthsModel : Model ℚ where
  direction := .maximize
  cost := [1, 1, 1]
  domains := [.integer, .free, .nonpositive]
  constraints := [⟨[8, 0, 0], .less, 17⟩, ⟨[0, 3, 0], .less, 1⟩, ⟨[0, 0, 2], .less, -1⟩]

def pureEighthsModel : Model ℚ where
  direction := .maximize
  cost := [1]
  domains := [.integer]
  constraints := [⟨[8], .less, 17⟩]

theorem exists_ok_of_map_eq_ok {ε β γ : Type} {f : β → γ} {result : Except ε β} {b : γ}
    (h : result.map f = .ok b) : ∃ a, result = .ok a ∧ f a = b := by
  cases result with
  | error e => cases h
  | ok a => exact ⟨a, rfl, Except.ok.inj h⟩

theorem Outcome.exists_of_map_eq_optimal {β γ : Type} {f : β → γ} {outcome : Outcome β} {b : γ}
    (h : outcome.map f = .optimal b) : ∃ a, outcome = .optimal a ∧ f a = b := by
  cases outcome with
  | infeasible => cases h
  | unbounded => cases h
  | optimal a => exact ⟨a, rfl, Outcome.optimal.inj h⟩

def Session.tolerant (ε : ℚ) : Session ℚ := .start { (Settings.standard : Settings ℚ) with tolerances := ⟨0, ε, 0⟩ }

theorem Model.rounds_of_optimal_eighthsModel :
    let c := CanonicalForm.ofModel eighthsModel
    let c' := CanonicalForm.ofModel pureEighthsModel
    Model.ofData .maximize [1, 1, 1] [[8, 0, 0], [0, 3, 0], [0, 0, 2]] [.less, .less, .less] [17, 1, -1]
      [.integer, .free, .nonpositive] = .ok eighthsModel ∧
    Model.ofData .maximize [1] [[8]] [.less] [17] [.integer] = .ok pureEighthsModel ∧
    (∃ report best, (c.branchAndBoundWithin 5 (.tolerant (1 / 8))).1 = .ok report ∧ report.outcome = .optimal best ∧
      best.values = [2, 1 / 3, -1 / 2] ∧ best.tableauValue c 0 = 17 / 8 ∧ best.Rounds c eighthsModel (1 / 8)) ∧
    ∃ report best, (c'.cuttingPlane (.tolerant (1 / 8))).1 = .ok report ∧ report.outcome = .optimal best ∧
      best.values = [2] ∧ best.tableauValue c' 0 = 17 / 8 ∧ best.Rounds c' pureEighthsModel (1 / 8) := by
  intro c c'
  have hm : Model.ofData .maximize [1, 1, 1] [[8, 0, 0], [0, 3, 0], [0, 0, 2]] [.less, .less, .less] [17, 1, -1]
      [.integer, .free, .nonpositive] = .ok eighthsModel := by decide +kernel
  have hpure : Model.ofData .maximize [1] [[8]] [.less] [17] [.integer] = .ok pureEighthsModel := by decide +kernel
  have hε : 0 ≤ (Session.tolerant (1 / 8)).settings.tolerances.general := by decide +kernel
  have hsearch : (c.branchAndBoundWithin 5 (.tolerant (1 / 8))).1.map
      (fun report => report.outcome.map fun best => (best.values, best.tableauValue c 0)) =
        .ok (.optimal ([2, 1 / 3, -1 / 2], 17 / 8)) := by decide +kernel
  have hcuts : (c'.cuttingPlane (.tolerant (1 / 8))).1.map
      (fun report => report.outcome.map fun best => (best.values, best.tableauValue c' 0)) =
        .ok (.optimal ([2], 17 / 8)) := by decide +kernel
  obtain ⟨report, hreport, houtcome⟩ := exists_ok_of_map_eq_ok hsearch
  obtain ⟨best, hbest, hvalues⟩ := Outcome.exists_of_map_eq_optimal houtcome
  obtain ⟨report', hreport', houtcome'⟩ := exists_ok_of_map_eq_ok hcuts
  obtain ⟨best', hbest', hvalues'⟩ := Outcome.exists_of_map_eq_optimal houtcome'
  obtain ⟨hlist, hvalue⟩ := Prod.mk.inj hvalues
  obtain ⟨hlist', hvalue'⟩ := Prod.mk.inj hvalues'
  exact ⟨hm, hpure,
    ⟨report, best, hreport, hbest, hlist, hvalue, (rounds_of_optimal hm _ hε best).1 5 report hreport hbest⟩,
    report', best', hreport', hbest', hlist', hvalue', (rounds_of_optimal hpure _ hε best').2 report' hreport' hbest'⟩

end LinearProgramming
