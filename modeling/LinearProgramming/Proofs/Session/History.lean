import LinearProgramming.Integer.BranchAndBound
import LinearProgramming.Integer.CuttingPlane
import LinearProgramming.Knapsack.Search
import LinearProgramming.Proofs.Sensitivity.Sizes
import LinearProgramming.Simplex.Revised

/-! # Calls that do not depend on the history of their session

A session is handed from one algorithm to the next, with the settings and with all that happened before: the trail and
the number of pivots. `Session.HistoryFree` says of a call that it reads only the settings, and of these not whether
steps are recorded. It compares two runs of the call, in sessions of which nothing else is known: they give the same
value and make the same number of pivots.

Calls that are made one after the other are history free if each of them is (`HistoryFree.bind`), and the loops by
induction. So all algorithms are (`Session.historyFree_calls`). Nothing is assumed about the arithmetic. -/

namespace LinearProgramming

variable {α : Type}

def Settings.silent (p : Settings α) : Settings α := { p with recordIterations := false }

namespace Session

variable {s s' r r' u u' : Session α}

/-- The settings are the same, apart from recording. Trails and pivot counts may differ. -/
def Alike (s s' : Session α) : Prop := s.settings.silent = s'.settings.silent

namespace Alike

variable (h : s.Alike s')
include h

theorem tolerances_eq : s.settings.tolerances = s'.settings.tolerances := (congrArg Settings.tolerances h :)

theorem tolerance_eq : s.tolerance = s'.tolerance := (congrArg Tolerances.general h.tolerances_eq :)

theorem maxPivots_eq : s.settings.maxPivots = s'.settings.maxPivots := (congrArg Settings.maxPivots h :)

theorem maxDegeneratePivots_eq : s.settings.maxDegeneratePivots = s'.settings.maxDegeneratePivots :=
  (congrArg Settings.maxDegeneratePivots h :)

theorem maxNodes_eq : s.settings.maxNodes = s'.settings.maxNodes := (congrArg Settings.maxNodes h :)

theorem maxCuts_eq : s.settings.maxCuts = s'.settings.maxCuts := (congrArg Settings.maxCuts h :)

theorem maxKnapsackIterations_eq : s.settings.maxKnapsackIterations = s'.settings.maxKnapsackIterations :=
  (congrArg Settings.maxKnapsackIterations h :)

end Alike

/-- Two runs that started in `s` and `s'` have come to `r` and `r'`: the sessions are alike, and the runs have made the
same number of pivots. -/
structure InStep (s s' r r' : Session α) : Prop where
  alike : r.Alike r'
  nrPivots_eq : ∃ added, r.nrPivots = s.nrPivots + added ∧ r'.nrPivots = s'.nrPivots + added

namespace InStep

theorem refl (h : s.Alike s') : InStep s s' s s' := ⟨h, 0, rfl, rfl⟩

theorem trans (h : InStep s s' r r') (h' : InStep r r' u u') : InStep s s' u u' := by
  obtain ⟨added, hr, hr'⟩ := h.nrPivots_eq
  obtain ⟨added', hu, hu'⟩ := h'.nrPivots_eq
  exact ⟨h'.alike, added + added', by omega, by omega⟩

-- One of the two sessions may record the step and the other one not.
theorem record (h : s.Alike s') (event : Event α) (t : Tableau α) :
    InStep s s' (s.record event t) (s'.record event t) := by
  refine ⟨?_, 0, nrPivots_record s event t, nrPivots_record s' event t⟩
  rw [Alike, settings_record, settings_record]
  exact h

theorem recordPivot (h : s.Alike s') (event : Event α) (t : Tableau α) :
    InStep s s' (s.recordPivot event t) (s'.recordPivot event t) := by
  refine ⟨?_, 1, nrPivots_recordPivot s event t, nrPivots_recordPivot s' event t⟩
  rw [Alike, settings_recordPivot, settings_recordPivot]
  exact h

end InStep

/-- In any two sessions that are alike, the call gives the same value and makes the same number of pivots. -/
def HistoryFree {β : Type} (call : Session α → β × Session α) : Prop :=
  ∀ ⦃s s' : Session α⦄, s.Alike s' → (call s).1 = (call s').1 ∧ InStep s s' (call s).2 (call s').2

namespace HistoryFree

variable {β γ : Type} {call : Session α → β × Session α}

theorem pure (x : β) : HistoryFree fun s : Session α => (x, s) := fun _ _ h => ⟨rfl, .refl h⟩

theorem bind (h : HistoryFree call) {next : β → Session α → γ × Session α} (hnext : ∀ x, HistoryFree (next x)) :
    HistoryFree fun s => next (call s).1 (call s).2 := by
  intro s s' halike
  obtain ⟨hvalue, hstep⟩ := h halike
  obtain ⟨hvalue', hstep'⟩ := hnext (call s').1 hstep.alike
  simp only [hvalue]
  exact ⟨hvalue', hstep.trans hstep'⟩

theorem map (h : HistoryFree call) (f : β → γ) : HistoryFree fun s => (f (call s).1, (call s).2) :=
  h.bind fun x => pure (f x)

theorem record (h : HistoryFree call) (event : Event α) (t : Tableau α) :
    HistoryFree fun s => call (s.record event t) := by
  intro s s' halike
  have hstep := InStep.record halike event t
  obtain ⟨hvalue, hstep'⟩ := h hstep.alike
  exact ⟨hvalue, hstep.trans hstep'⟩

theorem recordPivot (h : HistoryFree call) (event : Event α) (t : Tableau α) :
    HistoryFree fun s => call (s.recordPivot event t) := by
  intro s s' halike
  have hstep := InStep.recordPivot halike event t
  obtain ⟨hvalue, hstep'⟩ := h hstep.alike
  exact ⟨hvalue, hstep.trans hstep'⟩

end HistoryFree

end Session

open Session

variable [Scalar α]

/-! ### Simplex runs -/

/-- Result and tableau of a run, apart from its session. -/
def Run.parts (run : Run α) : (Except Error (Outcome (List α)) × Tableau α) × Session α :=
  ((run.result, run.tableau), run.session)

namespace Tableau

theorem historyFree_dualLoop (remaining : ℕ) (t : Tableau α) : HistoryFree fun s => (dualLoop remaining t s).parts := by
  induction remaining generalizing t with
  | zero =>
    intro s s' h
    unfold dualLoop
    simp only [h.tolerance_eq, h.maxPivots_eq]
    cases t.dualMove s'.tolerance with
    | stop outcome => exact ⟨rfl, .refl h⟩
    | pivot row column => exact ⟨rfl, .refl h⟩
  | succ remaining ih =>
    intro s s' h
    unfold dualLoop
    simp only [h.tolerance_eq]
    cases t.dualMove s'.tolerance with
    | stop outcome => exact ⟨rfl, .refl h⟩
    | pivot row column => exact (ih (t.pivot column row)).recordPivot _ _ h

theorem historyFree_primalLoop (rule : EnteringRule) (remaining degenerate : ℕ) (t : Tableau α) :
    HistoryFree fun s => (primalLoop rule remaining degenerate t s).parts := by
  induction remaining generalizing degenerate t with
  | zero =>
    intro s s' h
    unfold primalLoop
    simp only [h.tolerance_eq, h.maxPivots_eq, h.maxDegeneratePivots_eq]
    cases t.primalMove rule (s'.settings.maxDegeneratePivots ≤ degenerate) s'.tolerance with
    | stop outcome => exact ⟨rfl, .refl h⟩
    | pivot row column => exact ⟨rfl, .refl h⟩
  | succ remaining ih =>
    intro s s' h
    unfold primalLoop
    simp only [h.tolerance_eq, h.maxDegeneratePivots_eq]
    cases t.primalMove rule (s'.settings.maxDegeneratePivots ≤ degenerate) s'.tolerance with
    | stop outcome => exact ⟨rfl, .refl h⟩
    | pivot row column => exact (ih _ (t.pivot column row)).recordPivot _ _ h

theorem historyFree_dual (t : Tableau α) : HistoryFree fun s => (t.dual s).parts := by
  intro s s' h
  unfold dual
  simp only [h.maxPivots_eq]
  exact historyFree_dualLoop _ t h

theorem historyFree_primal (t : Tableau α) (rule : EnteringRule) : HistoryFree fun s => (t.primal rule s).parts := by
  intro s s' h
  unfold primal
  simp only [h.maxPivots_eq]
  exact historyFree_primalLoop rule _ 0 t h

/-- What a solve does after its dual phase. -/
def afterDual (found : Except Error (Outcome (List α)) × Tableau α) (s : Session α) :
    (Except Error (Outcome (List α)) × Tableau α) × Session α :=
  match found.1 with
  | .ok (.optimal _) => (found.2.primal .steepest s).parts
  | _ => (found, s)

theorem parts_solve (t : Tableau α) (s : Session α) :
    (t.solve s).parts = afterDual (t.dual s).parts.1 (t.dual s).parts.2 := by
  unfold solve afterDual Run.parts
  cases hres : (t.dual s).result with
  | error e => simp only [hres]
  | ok outcome =>
    cases outcome with
    | infeasible => simp only [hres]
    | unbounded => simp only [hres]
    | optimal values => simp only [hres]

theorem historyFree_solve (t : Tableau α) : HistoryFree fun s => (t.solve s).parts := by
  simp only [parts_solve]
  refine (historyFree_dual t).bind fun ⟨result, u⟩ => ?_
  cases result with
  | error e => exact .pure _
  | ok outcome =>
    cases outcome with
    | infeasible => exact .pure _
    | unbounded => exact .pure _
    | optimal values => exact historyFree_primal u .steepest

end Tableau

theorem CanonicalForm.historyFree_solve (c : CanonicalForm α) : HistoryFree c.solve :=
  ((Tableau.historyFree_solve c.tableau).record .initial c.tableau).map
    fun found => found.1.map (·.map (c.solution found.2))

namespace Revised

theorem historyFree_loop (rule : EnteringRule) (first : Tableau α) (cost : List α) (remaining : ℕ)
    (b : BasisInverse α) : HistoryFree (loop rule first cost remaining b) := by
  induction remaining generalizing b with
  | zero =>
    intro s s' h
    unfold loop
    simp only [h.tolerance_eq, h.maxPivots_eq]
    cases move rule first cost b s'.tolerance with
    | stop outcome => exact ⟨rfl, .refl h⟩
    | pivot row column => exact ⟨rfl, .refl h⟩
  | succ remaining ih =>
    intro s s' h
    unfold loop
    simp only [h.tolerance_eq]
    cases move rule first cost b s'.tolerance with
    | stop outcome => exact ⟨rfl, .refl h⟩
    | pivot row column => exact (ih _).recordPivot _ _ h

end Revised

theorem CanonicalForm.historyFree_solveRevised (c : CanonicalForm α) (rule : EnteringRule) :
    HistoryFree (c.solveRevised rule) := by
  intro s s' h
  unfold solveRevised
  simp only [h.tolerance_eq, h.maxPivots_eq]
  split_ifs
  · exact ⟨rfl, .refl h⟩
  · exact Revised.historyFree_loop rule _ _ _ _ h

/-! ### Integer methods -/

namespace CanonicalForm

theorem historyFree_cutLoop (c : CanonicalForm α) (remaining nrCuts : ℕ) (integerColumns : List Bool) (t : Tableau α) :
    HistoryFree (c.cutLoop remaining nrCuts integerColumns t) := by
  induction remaining using Nat.strong_induction_on generalizing nrCuts integerColumns t with
  | _ remaining ih =>
    intro s s' h
    obtain ⟨hparts, hstep⟩ := Tableau.historyFree_solve t h
    obtain ⟨hresult, htableau⟩ := Prod.mk.inj hparts
    simp only [cutLoop.eq_def c remaining, h.tolerance_eq, h.maxCuts_eq, hresult, htableau]
    split
    · exact ⟨rfl, hstep⟩
    · exact ⟨rfl, hstep⟩
    · exact ⟨rfl, hstep⟩
    · split
      · exact ⟨rfl, hstep⟩
      · cases remaining with
        | zero => exact ⟨rfl, hstep⟩
        | succ n =>
          obtain ⟨hvalue, hstep'⟩ := (ih n (Nat.lt_succ_self n) _ _ _).record _ _ hstep.alike
          exact ⟨hvalue, hstep.trans hstep'⟩

theorem historyFree_cuttingPlane (c : CanonicalForm α) : HistoryFree c.cuttingPlane := by
  intro s s' h
  unfold cuttingPlane
  cases c.cutColumns with
  | error e => exact ⟨rfl, .refl h⟩
  | ok columns =>
    simp only [h.maxCuts_eq]
    exact (c.historyFree_cutLoop _ 0 columns c.tableau).record _ _ h

/-- Of the session, the state after a node has only the tolerance in it. -/
theorem advance_eq (c : CanonicalForm α) (state : SearchState α) (node : SearchNode α) (rest : List (SearchNode α))
    (t : Tableau α) (resolved : NodeOutcome α) {r r' : Session α} (h : r.Alike r') :
    c.advance state node rest t resolved r =
      { c.advance { state with session := r' } node rest t resolved r' with session := r } := by
  cases resolved with
  | infeasible => rfl
  | unbounded => rfl
  | dominated => rfl
  | integral objectiveValue => simp only [advance, h.tolerance_eq]
  | branched variableIndex v => rfl

theorem historyFree_searchLoop (c : CanonicalForm α) (fuel : ℕ) (state : SearchState α) :
    HistoryFree fun s => c.searchLoop fuel { state with session := s } := by
  induction fuel generalizing state with
  | zero => exact .pure _
  | succ fuel ih =>
    intro s s' h
    obtain ⟨queue, nextId, nrNodes, incumbent, -⟩ := state
    unfold searchLoop
    simp only [h.maxNodes_eq]
    cases queue with
    | nil => exact ⟨rfl, .refl h⟩
    | cons node rest =>
      dsimp only
      split_ifs with hlimit
      · exact ⟨rfl, .refl h⟩
      · obtain ⟨hparts, hstep⟩ := Tableau.historyFree_solve node.tableau h
        obtain ⟨hresult, htableau⟩ := Prod.mk.inj hparts
        have htolerance := hstep.alike.tolerance_eq
        simp only [Run.parts] at hstep htolerance
        simp only [hresult, htableau, htolerance]
        generalize node.tableau.solve s = run at hstep ⊢
        generalize node.tableau.solve s' = run' at hstep ⊢
        cases run'.result with
        | error e => exact ⟨rfl, hstep⟩
        | ok outcome =>
          dsimp only
          generalize c.resolveNode incumbent run'.tableau outcome run'.session.tolerance = resolved
          have hrecord := hstep.trans (.record hstep.alike (.node node.id node.depth resolved) run'.tableau)
          split
          · exact ⟨rfl, hrecord⟩
          · rw [c.advance_eq _ node rest run'.tableau _ hrecord.alike,
              c.advance_eq ⟨_, _, _, _, s'⟩ node rest run'.tableau _ rfl]
            obtain ⟨hvalue, hstep'⟩ := ih _ hrecord.alike
            exact ⟨hvalue, hrecord.trans hstep'⟩

theorem historyFree_branchAndBoundWithin (c : CanonicalForm α) (unlimited : ℕ) :
    HistoryFree (c.branchAndBoundWithin unlimited) := by
  intro s s' h
  unfold branchAndBoundWithin
  simp only [h.maxNodes_eq]
  exact (c.historyFree_searchLoop _ ⟨[⟨0, 0, c.tableau⟩], 1, 0, none, s⟩).record .initial c.tableau h

end CanonicalForm

theorem Model.historyFree_solveWithin (m : Model α) (unlimited : ℕ) : HistoryFree (m.solveWithin unlimited) := by
  unfold solveWithin
  split_ifs
  · exact (CanonicalForm.ofModel m).historyFree_solve
  · exact ((CanonicalForm.ofModel m).historyFree_branchAndBoundWithin unlimited).map (·.map (·.outcome))

/-- The knapsack search makes no pivots and leaves the session as it is. -/
theorem Model.historyFree_solveKnapsack (m : Model α) : HistoryFree fun s => (m.solveKnapsack s.settings, s) := by
  intro s s' h
  refine ⟨?_, .refl h⟩
  simp only [solveKnapsack, h.tolerances_eq, h.maxKnapsackIterations_eq]

/-! ### Analyzers -/

def Changed.parts (c : Changed α) : (Except Error (Outcome (Solution α)) × Analyzer α) × Session α :=
  ((c.result, c.analyzer), c.session)

namespace Analyzer

theorem historyFree_ofModel (m : Model α) : HistoryFree (Analyzer.ofModel m) := by
  intro s s' h
  obtain ⟨hparts, hstep⟩ := (Tableau.historyFree_solve (CanonicalForm.ofModel m).tableau).record .initial
    (CanonicalForm.ofModel m).tableau h
  obtain ⟨hresult, htableau⟩ := Prod.mk.inj hparts
  unfold Analyzer.ofModel
  simp only [hresult, htableau, h.tolerances_eq]
  split
  · exact ⟨rfl, hstep⟩
  · exact ⟨rfl, hstep⟩
  · exact ⟨rfl, hstep⟩
  · exact ⟨rfl, hstep⟩

theorem historyFree_reoptimize (a : Analyzer α) : HistoryFree fun s => (a.reoptimize s).parts := by
  intro s s' h
  obtain ⟨hparts, hstep⟩ := (Tableau.historyFree_solve a.tableau).record .initial a.tableau h
  obtain ⟨hresult, htableau⟩ := Prod.mk.inj hparts
  unfold reoptimize
  simp only [hresult, htableau]
  split
  · exact ⟨rfl, hstep⟩
  · split
    · exact ⟨rfl, hstep⟩
    · exact ⟨rfl, hstep⟩

/-- Whether a request is refused, and which problem is solved otherwise, is decided without the session. -/
theorem apply_cases (a : Analyzer α) (r : Request α) :
    (∃ e, ∀ s, r.apply a s = a.refuse s e) ∨ ∃ changed : Analyzer α, ∀ s, r.apply a s = changed.reoptimize s := by
  cases r with
  | setCost variableIndex value =>
    simp only [Request.apply, changeCost]
    split
    · exact .inl ⟨_, fun _ => rfl⟩
    · exact .inr ⟨_, fun _ => rfl⟩
  | setRhs index value =>
    simp only [Request.apply, changeRhs]
    split
    · exact .inl ⟨_, fun _ => rfl⟩
    · exact .inr ⟨_, fun _ => rfl⟩
  | setCoefficient index variableIndex value =>
    simp only [Request.apply, changeCoefficient]
    split
    · exact .inl ⟨_, fun _ => rfl⟩
    · split
      · exact .inl ⟨_, fun _ => rfl⟩
      · split_ifs
        · exact .inl ⟨_, fun _ => rfl⟩
        · exact .inr ⟨_, fun _ => rfl⟩
  | addActivity cost coefficients =>
    simp only [Request.apply, addActivity]
    split_ifs
    · exact .inl ⟨_, fun _ => rfl⟩
    · exact .inr ⟨_, fun _ => rfl⟩
  | addConstraint coefficients relation rhs =>
    simp only [Request.apply, addConstraint]
    split_ifs
    · exact .inl ⟨_, fun _ => rfl⟩
    · exact .inr ⟨_, fun _ => rfl⟩

theorem historyFree_apply (a : Analyzer α) (r : Request α) : HistoryFree fun s => (r.apply a s).parts := by
  obtain ⟨e, hrefuse⟩ | ⟨changed, hsolve⟩ := a.apply_cases r
  · simp only [hrefuse]
    intro s s' h
    exact ⟨rfl, .refl h⟩
  · simp only [hsolve]
    exact changed.historyFree_reoptimize

end Analyzer

/-! ### All calls -/

/-- No call depends on recording, or on what its session was used for before. -/
theorem Session.historyFree_calls :
    (∀ (m : Model α) (unlimited : ℕ), HistoryFree (m.solveWithin unlimited)) ∧
    (∀ t : Tableau α, HistoryFree fun s => (t.solve s).parts) ∧
    (∀ c : CanonicalForm α, HistoryFree c.solve) ∧
    (∀ (c : CanonicalForm α) (rule : EnteringRule), HistoryFree (c.solveRevised rule)) ∧
    (∀ (c : CanonicalForm α) (unlimited : ℕ), HistoryFree (c.branchAndBoundWithin unlimited)) ∧
    (∀ c : CanonicalForm α, HistoryFree c.cuttingPlane) ∧
    (∀ m : Model α, HistoryFree fun s => (m.solveKnapsack s.settings, s)) ∧
    (∀ m : Model α, HistoryFree (Analyzer.ofModel m)) ∧
    ∀ (a : Analyzer α) (r : Analyzer.Request α), HistoryFree fun s => (r.apply a s).parts :=
  ⟨Model.historyFree_solveWithin, Tableau.historyFree_solve, CanonicalForm.historyFree_solve,
    CanonicalForm.historyFree_solveRevised, CanonicalForm.historyFree_branchAndBoundWithin,
    CanonicalForm.historyFree_cuttingPlane, Model.historyFree_solveKnapsack, Analyzer.historyFree_ofModel,
    Analyzer.historyFree_apply⟩

/-- A session that does not record, after other work. -/
def Session.used : Session ℚ where
  settings := { exact.settings with recordIterations := false }
  trail := #[⟨.initial, (CanonicalForm.ofModel idleModel).tableau⟩]
  nrPivots := 7

theorem Session.historyFree_calls_capacityModel :
    Session.exact.Alike .used ∧ Session.exact.settings ≠ Session.used.settings ∧
      (Analyzer.ofModel capacityModel .exact).1 = (Analyzer.ofModel capacityModel .used).1 ∧
      (Analyzer.ofModel capacityModel .exact).2.nrPivots = 2 ∧
      (Analyzer.ofModel capacityModel .used).2.nrPivots = 9 := by
  have halike : Session.exact.Alike .used := rfl
  have hpivots : (Analyzer.ofModel capacityModel .exact).2.nrPivots = 2 := by decide +kernel
  obtain ⟨-, -, -, -, -, -, -, hofModel, -⟩ := @Session.historyFree_calls ℚ _
  obtain ⟨hvalue, hstep⟩ := hofModel capacityModel halike
  obtain ⟨added, hexact, hused⟩ := hstep.nrPivots_eq
  refine ⟨halike, by decide, hvalue, hpivots, ?_⟩
  have hstart : Session.exact.nrPivots = 0 ∧ Session.used.nrPivots = 7 := ⟨rfl, rfl⟩
  omega

end LinearProgramming
