import LinearProgramming.Proofs.Simplex.Moves
import LinearProgramming.Proofs.Simplex.Trail

/-! # Correctness of the simplex runs

In exact arithmetic a run rewrites its tableau in other bases and ends with a true statement about it. The step lemmas
say what one dual or primal pivot keeps, the run principles `dualLoop_induction` and `primalLoop_induction` follow by
induction on the number of pivots left, and `verdict_solve` joins the two phases: whatever `Tableau.solve` answers is
true of the nonnegative solutions of the tableau that it was given. -/

namespace LinearProgramming

open Finset

namespace Tableau

variable {t u v : Tableau ℚ} {i j row column : ℕ} {s : Session ℚ}

/-! ### Certificates -/

theorem objectiveAt_le_of_cost_nonneg (hcost : ∀ j < t.nrColumns, 0 ≤ t.relativeCost j) {x : ℕ → ℚ}
    (hx : t.Feasible x) : t.objectiveAt x ≤ t.objectiveValue := by
  have hsum : 0 ≤ ∑ j ∈ range t.nrColumns, t.relativeCost j * x j :=
    Finset.sum_nonneg fun j hj =>
      mul_nonneg (hcost j (Finset.mem_range.mp hj)) (hx.nonneg j (Finset.mem_range.mp hj))
  rw [objectiveAt]
  linarith

theorem not_feasible_of_row (hi : i < t.nrRows) (hrhs : t.rhs i < 0)
    (hentry : ∀ j < t.nrColumns, 0 ≤ t.entry i j) (x : ℕ → ℚ) : ¬t.Feasible x := by
  intro hx
  have hsum : 0 ≤ ∑ j ∈ range t.nrColumns, t.entry i j * x j :=
    Finset.sum_nonneg fun j hj =>
      mul_nonneg (hentry j (Finset.mem_range.mp hj)) (hx.nonneg j (Finset.mem_range.mp hj))
  have hrow := hx.satisfies i hi
  linarith

theorem UnitAt.feasible_edge (h : t.UnitAt t.basis) (hj : j ∈ t.others t.basis) {δ : ℚ} (hδ : 0 ≤ δ)
    (hrhs : ∀ i < t.nrRows, 0 ≤ t.rhs i - t.entry i j * δ) : t.Feasible (t.edge t.basis j δ) := by
  refine ⟨h.satisfies_edge j δ, fun k _ => ?_⟩
  by_cases hmem : k ∈ t.basis
  · obtain ⟨i, hi, rfl⟩ := h.exists_row hmem
    rw [h.edge_getD hj δ hi]
    exact hrhs i hi
  · rw [edge, completion_of_notMem _ hmem]
    split_ifs
    · exact hδ
    · exact le_rfl

theorem UnitAt.exists_feasible_gt (h : t.UnitAt t.basis) (hrhs : ∀ i < t.nrRows, 0 ≤ t.rhs i)
    (hj : j < t.nrColumns) (hmem : j ∉ t.basis) (hcost : t.relativeCost j < 0)
    (hentry : ∀ i < t.nrRows, t.entry i j ≤ 0) (bound : ℚ) :
    ∃ x, t.Feasible x ∧ bound < t.objectiveAt x := by
  have hother : j ∈ t.others t.basis := mem_others.mpr ⟨hj, hmem⟩
  -- going far enough along the edge: one more than the gap, divided by the rate of improvement
  let δ : ℚ := (|bound - t.objectiveValue| + 1) / -t.relativeCost j
  have hgap : 0 ≤ |bound - t.objectiveValue| + 1 := by positivity
  have hδ : 0 ≤ δ := div_nonneg hgap (by linarith)
  refine ⟨t.edge t.basis j δ, h.feasible_edge hother hδ fun i hi => ?_, ?_⟩
  · have hprod : t.entry i j * δ ≤ 0 := mul_nonpos_of_nonpos_of_nonneg (hentry i hi) hδ
    linarith [hrhs i hi]
  · have hgain : -t.relativeCost j * δ = |bound - t.objectiveValue| + 1 :=
      mul_div_cancel₀ _ (by linarith)
    rw [h.objectiveAt_edge hother]
    linarith [le_abs_self (bound - t.objectiveValue)]

/-! ### Verdicts -/

/-- What an outcome says about the maximisation over the nonnegative solutions of a tableau. -/
def Verdict (t : Tableau ℚ) : Outcome (List ℚ) → Prop
  | .optimal values => t.Feasible (ofList values) ∧
      ∀ x, t.Feasible x → t.objectiveAt x ≤ t.objectiveAt (ofList values)
  | .infeasible => ∀ x, ¬t.Feasible x
  | .unbounded => ∀ bound, ∃ x, t.Feasible x ∧ bound < t.objectiveAt x

theorem Verdict.of_equivalent (h : t.Equivalent u) {outcome : Outcome (List ℚ)} (hu : u.Verdict outcome) :
    t.Verdict outcome := by
  have hobj : ∀ x, t.Feasible x → u.objectiveAt x = t.objectiveAt x :=
    fun x hx => h.objectiveAt_eq x hx.satisfies
  cases outcome with
  | optimal values =>
    obtain ⟨hfeas, hbest⟩ := hu
    have hvalues := (h.feasible_iff _).mp hfeas
    refine ⟨hvalues, fun x hx => ?_⟩
    rw [← hobj x hx, ← hobj _ hvalues]
    exact hbest x ((h.feasible_iff x).mpr hx)
  | infeasible => exact fun x hx => hu x ((h.feasible_iff x).mpr hx)
  | unbounded =>
    intro bound
    obtain ⟨x, hx, hgt⟩ := hu bound
    have hx' := (h.feasible_iff x).mp hx
    exact ⟨x, hx', by rwa [hobj x hx'] at hgt⟩

/-! ### One step -/

theorem DualPivot.rewrites (hp : t.DualPivot row column) (h : t.AtBasis) : t.Rewrites (t.pivot column row) :=
  ⟨h.pivot hp.row_lt hp.column_lt hp.column_notMem hp.entry_neg.ne,
    h.equivalent_pivot hp.row_lt hp.column_lt hp.entry_neg.ne⟩

theorem PrimalPivot.rewrites (hp : t.PrimalPivot row column) (h : t.AtBasis) :
    t.Rewrites (t.pivot column row) :=
  ⟨h.pivot hp.row_lt hp.column_lt hp.column_notMem hp.entry_pos.ne',
    h.equivalent_pivot hp.row_lt hp.column_lt hp.entry_pos.ne'⟩

/-- The ratio test keeps the right hand sides nonnegative. -/
theorem PrimalPivot.rhs_nonneg (hp : t.PrimalPivot row column) (h : t.AtBasis)
    (hrhs : ∀ i < t.nrRows, 0 ≤ t.rhs i) : ∀ i < (t.pivot column row).nrRows, 0 ≤ (t.pivot column row).rhs i := by
  intro i hi
  rw [nrRows_pivot] at hi
  rw [rhs_pivot h.wellFormed hp.row_lt hp.column_lt hp.entry_pos.ne' hi]
  have hstep : 0 ≤ t.rhs row / t.entry row column := div_nonneg (hrhs row hp.row_lt) hp.entry_pos.le
  split_ifs with hir
  · exact hstep
  · by_cases hpos : 0 < t.entry i column
    · have hratio := hp.ratio_le i hi hpos
      rw [max_eq_left (hrhs row hp.row_lt), max_eq_left (hrhs i hi), le_div_iff₀ hpos] at hratio
      linarith
    · have hprod : t.entry i column * (t.rhs row / t.entry row column) ≤ 0 :=
        mul_nonpos_of_nonpos_of_nonneg (not_lt.mp hpos) hstep
      linarith [hrhs i hi]

end Tableau

/-! ### Sessions -/

namespace Session

/-- A session with the standard limits and without tolerances. -/
def exact : Session ℚ := start { (Settings.standard : Settings ℚ) with tolerances := ⟨0, 0, 0⟩ }

end Session

/-! ### Whole runs -/

/-- The run went from one basis to another, kept the settings, and failed only at the pivot limit. -/
structure Run.StartsAt (run : Run ℚ) (t : Tableau ℚ) (s : Session ℚ) : Prop where
  rewrites : t.Rewrites run.tableau
  settings_eq : run.session.settings = s.settings
  error_eq : ∀ e, run.result = .error e → e = .pivotLimit s.settings.maxPivots

theorem Run.StartsAt.pivot {run : Run ℚ} {t u : Tableau ℚ} {s s' : Session ℚ} (h : run.StartsAt u s')
    (hrew : t.Rewrites u) (hset : s'.settings = s.settings) : run.StartsAt t s :=
  ⟨hrew.trans h.rewrites, h.settings_eq.trans hset, fun e he => hset ▸ h.error_eq e he⟩

namespace Tableau

variable {t u : Tableau ℚ} {s : Session ℚ}

/-- What the dual method has established about the last tableau. -/
def DualEnd (u : Tableau ℚ) : Outcome (List ℚ) → Prop
  | .optimal values => values = u.basicSolution ∧ ∀ i < u.nrRows, 0 ≤ u.rhs i
  | .infeasible => ∃ i < u.nrRows, u.rhs i < 0 ∧ ∀ j < u.nrColumns, 0 ≤ u.entry i j
  | .unbounded => False

/-- What holds where a dual run ends, and carries over from each tableau to the one before it, holds of every dual
run. -/
theorem dualLoop_induction {motive : Tableau ℚ → Session ℚ → Run ℚ → Prop}
    (stop : ∀ t s outcome, t.AtBasis → t.DualEnd outcome → motive t s ⟨.ok outcome, t, s⟩)
    (limit : ∀ t s, t.AtBasis → motive t s ⟨.error (.pivotLimit s.settings.maxPivots), t, s⟩)
    (pivot : ∀ t s row column run, t.AtBasis → t.DualPivot row column →
      motive (t.pivot column row) (s.recordPivot (.dualPivot row column) (t.pivot column row)) run →
      motive t s run)
    (remaining : ℕ) (h : t.AtBasis) (hs : s.tolerance = 0) : motive t s (dualLoop remaining t s) := by
  induction remaining generalizing t s with
  | zero =>
    unfold dualLoop
    rw [hs]
    obtain ⟨hmove, hend⟩ | ⟨hmove, hend⟩ | ⟨row, column, hmove, _⟩ := dualMove_cases h
    · simp only [hmove]
      exact stop t s _ h ⟨rfl, hend⟩
    · simp only [hmove]
      exact stop t s _ h hend
    · simp only [hmove]
      exact limit t s h
  | succ remaining ih =>
    unfold dualLoop
    rw [hs]
    obtain ⟨hmove, hend⟩ | ⟨hmove, hend⟩ | ⟨row, column, hmove, hp⟩ := dualMove_cases h
    · simp only [hmove]
      exact stop t s _ h ⟨rfl, hend⟩
    · simp only [hmove]
      exact stop t s _ h hend
    · simp only [hmove]
      exact pivot t s row column _ h hp
        (ih (hp.rewrites h).atBasis (by rw [Session.tolerance_recordPivot, hs]))

theorem startsAt_dual (h : t.AtBasis) (hs : s.tolerance = 0) : (t.dual s).StartsAt t s := by
  refine dualLoop_induction (motive := fun t s run => run.StartsAt t s) ?_ ?_ ?_ _ h hs
  · exact fun t s outcome h _ => ⟨Rewrites.refl h, rfl, by simp⟩
  · exact fun t s h => ⟨Rewrites.refl h, rfl, by simp⟩
  · exact fun t s row column run h hp ih => ih.pivot (hp.rewrites h) (Session.settings_recordPivot ..)

theorem dualEnd_dual (h : t.AtBasis) (hs : s.tolerance = 0) {outcome : Outcome (List ℚ)}
    (hok : (t.dual s).result = .ok outcome) : (t.dual s).tableau.DualEnd outcome := by
  refine dualLoop_induction
    (motive := fun _ _ run => ∀ o, run.result = .ok o → run.tableau.DualEnd o) ?_ ?_ ?_ _ h hs outcome hok
  · intro t s found _ hend o ho
    obtain rfl := Except.ok.inj ho
    exact hend
  · intro t s _ o ho
    simp at ho
  · exact fun t s row column run _ _ ih => ih

/-! ### The primal run -/

/-- What the primal method, and with it the whole solve, has established about the last tableau. -/
def SolveEnd (u : Tableau ℚ) : Outcome (List ℚ) → Prop
  | .optimal values => values = u.basicSolution ∧ (∀ i < u.nrRows, 0 ≤ u.rhs i) ∧
      ∀ j < u.nrColumns, 0 ≤ u.relativeCost j
  | .infeasible => ∃ i < u.nrRows, u.rhs i < 0 ∧ ∀ j < u.nrColumns, 0 ≤ u.entry i j
  | .unbounded => (∀ i < u.nrRows, 0 ≤ u.rhs i) ∧
      ∃ j < u.nrColumns, j ∉ u.basis ∧ u.relativeCost j < 0 ∧ ∀ i < u.nrRows, u.entry i j ≤ 0

/-- As for dual runs. Every tableau of a primal run is feasible if the first one is. -/
theorem primalLoop_induction {motive : Tableau ℚ → Session ℚ → Run ℚ → Prop} (rule : EnteringRule)
    (stop : ∀ t s outcome, t.AtBasis → t.SolveEnd outcome → motive t s ⟨.ok outcome, t, s⟩)
    (limit : ∀ t s, t.AtBasis → motive t s ⟨.error (.pivotLimit s.settings.maxPivots), t, s⟩)
    (pivot : ∀ t s row column run, t.AtBasis → t.PrimalPivot row column →
      motive (t.pivot column row) (s.recordPivot (.primalPivot row column) (t.pivot column row)) run →
      motive t s run)
    (remaining degenerate : ℕ) (h : t.AtBasis) (hrhs : ∀ i < t.nrRows, 0 ≤ t.rhs i) (hs : s.tolerance = 0) :
    motive t s (primalLoop rule remaining degenerate t s) := by
  induction remaining generalizing degenerate t s with
  | zero =>
    unfold primalLoop
    rw [hs]
    obtain ⟨hmove, hend⟩ | ⟨hmove, hend⟩ | ⟨row, column, hmove, _⟩ :=
      primalMove_cases h rule (s.settings.maxDegeneratePivots ≤ degenerate)
    · simp only [hmove]
      exact stop t s _ h ⟨rfl, hrhs, hend⟩
    · simp only [hmove]
      exact stop t s _ h ⟨hrhs, hend⟩
    · simp only [hmove]
      exact limit t s h
  | succ remaining ih =>
    unfold primalLoop
    rw [hs]
    obtain ⟨hmove, hend⟩ | ⟨hmove, hend⟩ | ⟨row, column, hmove, hp, _⟩ :=
      primalMove_cases h rule (s.settings.maxDegeneratePivots ≤ degenerate)
    · simp only [hmove]
      exact stop t s _ h ⟨rfl, hrhs, hend⟩
    · simp only [hmove]
      exact stop t s _ h ⟨hrhs, hend⟩
    · simp only [hmove]
      exact pivot t s row column _ h hp
        (ih _ (hp.rewrites h).atBasis (hp.rhs_nonneg h hrhs) (by rw [Session.tolerance_recordPivot, hs]))

theorem startsAt_primal (rule : EnteringRule) (h : t.AtBasis) (hrhs : ∀ i < t.nrRows, 0 ≤ t.rhs i)
    (hs : s.tolerance = 0) : (t.primal rule s).StartsAt t s := by
  refine primalLoop_induction (motive := fun t s run => run.StartsAt t s) rule ?_ ?_ ?_ _ _ h hrhs hs
  · exact fun t s outcome h _ => ⟨Rewrites.refl h, rfl, by simp⟩
  · exact fun t s h => ⟨Rewrites.refl h, rfl, by simp⟩
  · exact fun t s row column run h hp ih => ih.pivot (hp.rewrites h) (Session.settings_recordPivot ..)

theorem solveEnd_primal (rule : EnteringRule) (h : t.AtBasis) (hrhs : ∀ i < t.nrRows, 0 ≤ t.rhs i)
    (hs : s.tolerance = 0) {outcome : Outcome (List ℚ)} (hok : (t.primal rule s).result = .ok outcome) :
    (t.primal rule s).tableau.SolveEnd outcome := by
  refine primalLoop_induction
    (motive := fun _ _ run => ∀ o, run.result = .ok o → run.tableau.SolveEnd o) rule ?_ ?_ ?_ _ _ h hrhs hs
    outcome hok
  · intro t s found _ hend o ho
    obtain rfl := Except.ok.inj ho
    exact hend
  · intro t s _ o ho
    simp at ho
  · exact fun t s row column run _ _ ih => ih

/-! ### Both phases -/

theorem Verdict.of_solveEnd (h : u.AtBasis) {outcome : Outcome (List ℚ)} (hend : u.SolveEnd outcome) :
    u.Verdict outcome := by
  cases outcome with
  | optimal values =>
    obtain ⟨rfl, hrhs, hcost⟩ := hend
    refine ⟨h.unitAt.feasible_basicSolution hrhs, fun x hx => ?_⟩
    rw [h.unitAt.objectiveAt_basicSolution]
    exact objectiveAt_le_of_cost_nonneg hcost hx
  | infeasible =>
    obtain ⟨i, hi, hneg, hentry⟩ := hend
    exact not_feasible_of_row hi hneg hentry
  | unbounded =>
    obtain ⟨hrhs, j, hj, hmem, hcost, hentry⟩ := hend
    exact h.unitAt.exists_feasible_gt hrhs hj hmem hcost hentry

theorem startsAt_solve (h : t.AtBasis) (hs : s.tolerance = 0) : (t.solve s).StartsAt t s := by
  have hdual := startsAt_dual h hs
  obtain ⟨heq, _⟩ | ⟨values, hok, heq⟩ := solve_cases t s
  · rw [heq]
    exact hdual
  · have hs' : (t.dual s).session.tolerance = 0 := by
      rw [Session.tolerance, hdual.settings_eq]
      exact hs
    rw [heq]
    exact (startsAt_primal _ hdual.rewrites.atBasis (dualEnd_dual h hs hok).2 hs').pivot hdual.rewrites
      hdual.settings_eq

theorem solveEnd_solve (h : t.AtBasis) (hs : s.tolerance = 0) {outcome : Outcome (List ℚ)}
    (hok : (t.solve s).result = .ok outcome) : (t.solve s).tableau.SolveEnd outcome := by
  have hdual := startsAt_dual h hs
  obtain ⟨heq, hne⟩ | ⟨values, hfeas, heq⟩ := solve_cases t s
  · rw [heq] at hok ⊢
    have hend := dualEnd_dual h hs hok
    cases outcome with
    | optimal values => exact absurd hok (hne values)
    | infeasible => exact hend
    | unbounded => exact hend.elim
  · have hs' : (t.dual s).session.tolerance = 0 := by
      rw [Session.tolerance, hdual.settings_eq]
      exact hs
    rw [heq] at hok ⊢
    exact solveEnd_primal _ hdual.rewrites.atBasis (dualEnd_dual h hs hfeas).2 hs' hok

/-- Whatever a solve answers is true of the tableau that it was given. -/
theorem verdict_solve (h : t.AtBasis) (hs : s.tolerance = 0) {outcome : Outcome (List ℚ)}
    (hok : (t.solve s).result = .ok outcome) : t.Verdict outcome := by
  have hrew := (startsAt_solve h hs).rewrites
  exact (Verdict.of_solveEnd hrew.atBasis (solveEnd_solve h hs hok)).of_equivalent hrew.equivalent

end Tableau

end LinearProgramming
