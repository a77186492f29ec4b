import LinearProgramming.Proofs.Simplex.Solve
import LinearProgramming.Proofs.Tableau.Extend

/-! # Dual feasible tableaus

A tableau without negative relative costs bounds the objective from above by its own objective value. The ratio test of
the dual method keeps this, so along a dual run the bound only comes down (`Tableau.DualFeasible.dual`),
and the primal phase of a solve finds nothing to do (`Tableau.DualFeasible.solve_eq_dual`). New constraints keep it too,
since their slacks have no cost (`Tableau.DualFeasible.restricts`). -/

namespace LinearProgramming

/-- What the chosen pivots keep holds at the end of a path, and what each of them does to its tableau holds of all
neighbours on the path. -/
theorem ChosenPath.isChain {α : Type} [Scalar α] {kind : ℕ → ℕ → Event α} {chosen : Tableau α → ℕ → ℕ → Prop}
    {t u : Tableau α} {records : List (Record α)} {P : Tableau α → Prop} {R : Tableau α → Tableau α → Prop}
    (step : ∀ t row column, P t → chosen t row column → P (t.pivot column row) ∧ R t (t.pivot column row))
    (h : ChosenPath kind chosen t records u) (ht : P t) : P u ∧ (t :: records.map (·.tableau)).IsChain R := by
  induction h with
  | done t => exact ⟨ht, List.isChain_singleton t⟩
  | pivot choice _ ih =>
    obtain ⟨hnext, hstep⟩ := step _ _ _ ht choice
    obtain ⟨hlast, hchain⟩ := ih hnext
    exact ⟨hlast, List.isChain_cons_cons.mpr ⟨hstep, hchain⟩⟩

namespace Tableau

variable {t u : Tableau ℚ} {row column : ℕ} {s : Session ℚ}

/-- The tableau is at a basis, and no relative cost is negative. -/
structure DualFeasible (t : Tableau ℚ) : Prop where
  atBasis : t.AtBasis
  cost_nonneg : ∀ j < t.nrColumns, 0 ≤ t.relativeCost j

/-- The second tableau has no negative relative cost, and no greater objective value than the first. -/
structure Descends (t u : Tableau ℚ) : Prop where
  cost_nonneg : ∀ j < u.nrColumns, 0 ≤ u.relativeCost j
  objectiveValue_le : u.objectiveValue ≤ t.objectiveValue

/-! ### One pivot -/

theorem DualPivot.objectiveValue_le (hp : t.DualPivot row column) (h : t.DualFeasible) :
    (t.pivot column row).objectiveValue ≤ t.objectiveValue := by
  have hstep : 0 ≤ t.rhs row / t.entry row column := (div_pos_of_neg_of_neg hp.rhs_neg hp.entry_neg).le
  have hprod : 0 ≤ t.relativeCost column * (t.rhs row / t.entry row column) :=
    mul_nonneg (h.cost_nonneg column hp.column_lt) hstep
  rw [objectiveValue_pivot h.atBasis.wellFormed hp.row_lt hp.column_lt hp.entry_neg.ne]
  linarith

/-- In the row of the pivot, the ratio test covers the negative entries, and at the others the cost cannot fall. -/
theorem DualPivot.relativeCost_nonneg (hp : t.DualPivot row column) (h : t.DualFeasible) :
    ∀ j < t.nrColumns, 0 ≤ (t.pivot column row).relativeCost j := by
  intro j hj
  have hcost := h.cost_nonneg column hp.column_lt
  have hcostj := h.cost_nonneg j hj
  rw [relativeCost_pivot h.atBasis.wellFormed hp.row_lt hp.column_lt hp.entry_neg.ne]
  by_cases hneg : t.entry row j < 0
  · have hmem : j ∉ t.basis := by
      intro hmem
      rw [h.atBasis.unitAt.entry_of_mem hmem hp.row_lt] at hneg
      split_ifs at hneg <;> linarith
    have hratio := hp.ratio_le j hj hmem hneg
    rw [abs_of_nonpos (div_nonpos_of_nonneg_of_nonpos hcost hp.entry_neg.le),
      abs_of_nonpos (div_nonpos_of_nonneg_of_nonpos hcostj hneg.le), neg_le_neg_iff, div_le_iff_of_neg hneg] at hratio
    have hswap : t.relativeCost column * (t.entry row j / t.entry row column) =
        t.relativeCost column / t.entry row column * t.entry row j := by ring
    linarith
  · have hquot : t.entry row j / t.entry row column ≤ 0 :=
      div_nonpos_of_nonneg_of_nonpos (not_lt.mp hneg) hp.entry_neg.le
    have hprod := mul_nonpos_of_nonneg_of_nonpos hcost hquot
    linarith

theorem AtBasis.dualPivot_of_dualChoice (h : t.AtBasis) (hchoice : t.DualChoice 0 row column) :
    t.DualPivot row column := by
  rw [DualChoice] at hchoice
  obtain ⟨hmove, -⟩ | ⟨hmove, -⟩ | ⟨_, _, hmove, hp⟩ := dualMove_cases h
  · cases hmove.symm.trans hchoice
  · cases hmove.symm.trans hchoice
  · obtain ⟨rfl, rfl⟩ := Move.pivot.inj (hmove.symm.trans hchoice)
    exact hp

theorem DualFeasible.pivot (h : t.DualFeasible) (hchoice : t.DualChoice 0 row column) :
    (t.pivot column row).DualFeasible ∧ t.Descends (t.pivot column row) := by
  have hp := h.atBasis.dualPivot_of_dualChoice hchoice
  exact ⟨⟨(hp.rewrites h.atBasis).atBasis, hp.relativeCost_nonneg h⟩, hp.relativeCost_nonneg h, hp.objectiveValue_le h⟩

/-! ### Whole runs -/

/-- Each pivot of a dual run descends, and so does the run as a whole. -/
theorem DualFeasible.dual (h : t.DualFeasible) (hs : s.tolerance = 0) :
    (t.dual s).tableau.DualFeasible ∧ (t.dual s).tableau.objectiveValue ≤ t.objectiveValue ∧
    ∃ records, ChosenPath .dualPivot (DualChoice 0) t records (t.dual s).tableau ∧
      s.Logs records (t.dual s).session ∧ (t :: records.map (·.tableau)).IsChain Descends := by
  obtain ⟨records, hpath, hlogs⟩ := exists_chosen_dualLoop s.settings.maxPivots t s
  rw [hs] at hpath
  -- the bound by the first objective value is carried along with dual feasibility
  obtain ⟨⟨hlast, hle⟩, hchain⟩ := hpath.isChain (R := Descends)
    (P := fun u => u.DualFeasible ∧ u.objectiveValue ≤ t.objectiveValue) (fun u row column hu hchoice => by
      obtain ⟨hnext, hstep⟩ := hu.1.pivot hchoice
      exact ⟨⟨hnext, hstep.objectiveValue_le.trans hu.2⟩, hstep⟩) ⟨h, le_rfl⟩
  exact ⟨hlast, hle, records, hpath, hlogs, hchain⟩

theorem DualFeasible.primal_eq (h : t.DualFeasible) (rule : EnteringRule) (hs : s.tolerance = 0) :
    t.primal rule s = ⟨.ok (.optimal t.basicSolution), t, s⟩ := by
  unfold primal primalLoop
  rw [hs]
  obtain ⟨hmove, -⟩ | ⟨-, j, hj, -, hneg, -⟩ | ⟨row, column, -, hp, -⟩ :=
    primalMove_cases h.atBasis rule (s.settings.maxDegeneratePivots ≤ 0)
  · simp only [hmove]
  · exact absurd (h.cost_nonneg j hj) (not_le.mpr hneg)
  · exact absurd (h.cost_nonneg column hp.column_lt) (not_le.mpr hp.cost_neg)

theorem AtBasis.dual_eq (h : t.AtBasis) (hrhs : ∀ i < t.nrRows, 0 ≤ t.rhs i) (hs : s.tolerance = 0) :
    t.dual s = ⟨.ok (.optimal t.basicSolution), t, s⟩ := by
  unfold dual dualLoop
  rw [hs]
  obtain ⟨hmove, -⟩ | ⟨-, i, hi, hneg, -⟩ | ⟨row, column, -, hp⟩ := dualMove_cases h
  · simp only [hmove]
  · exact absurd (hrhs i hi) (not_le.mpr hneg)
  · exact absurd (hrhs row hp.row_lt) (not_le.mpr hp.rhs_neg)

/-- No primal pivot is left to do after the dual phase. -/
theorem DualFeasible.solve_eq_dual (h : t.DualFeasible) (hs : s.tolerance = 0) : t.solve s = t.dual s := by
  obtain ⟨heq, -⟩ | ⟨values, hok, heq⟩ := solve_cases t s
  · exact heq
  · have hs' : (t.dual s).session.tolerance = 0 := by
      rw [Session.tolerance, (startsAt_dual h.atBasis hs).settings_eq]
      exact hs
    obtain ⟨rfl, -⟩ := dualEnd_dual h.atBasis hs hok
    rw [heq, (h.dual hs).1.primal_eq .steepest hs', ← hok]

/-- An optimal tableau is returned as it is. -/
theorem DualFeasible.solve_eq (h : t.DualFeasible) (hrhs : ∀ i < t.nrRows, 0 ≤ t.rhs i) (hs : s.tolerance = 0) :
    t.solve s = ⟨.ok (.optimal t.basicSolution), t, s⟩ := by
  rw [h.solve_eq_dual hs, h.atBasis.dual_eq hrhs hs]

/-! ### New constraints -/

/-- Constraints over the columns that are there, appended one after the other. -/
inductive Restricts (t : Tableau ℚ) : Tableau ℚ → Prop
  | start : t.Restricts t
  | addConstraint {u : Tableau ℚ} (c : Constraint ℚ) (rest : t.Restricts u)
      (fits : c.coefficients.length ≤ u.nrColumns) : t.Restricts (u.addConstraint c.coefficients c.relation c.rhs)

/-- The cost row stays as it is, and the new slack has no cost. -/
theorem DualFeasible.addInequality (h : t.DualFeasible) {coefficients : List ℚ}
    (hlen : coefficients.length ≤ t.nrColumns) (sign rhs : ℚ) :
    (t.addInequality coefficients sign rhs).DualFeasible ∧
      (t.addInequality coefficients sign rhs).objectiveValue = t.objectiveValue := by
  have hwf := h.atBasis.wellFormed
  refine ⟨⟨h.atBasis.addInequality hlen, fun j hj => ?_⟩, ?_⟩
  · rw [hwf.nrColumns_addInequality] at hj
    rw [relativeCost, hwf.matrix_entry_addInequality (Nat.succ_pos _), hwf.entry_widened (Nat.succ_pos _)]
    split_ifs with hold hnew
    · exact h.cost_nonneg j hold
    · exact le_rfl
    · omega
  · rw [objectiveValue, hwf.nrColumns_addInequality, hwf.matrix_entry_addInequality (Nat.succ_pos _),
      hwf.entry_widened_last (Nat.succ_pos _), objectiveValue]

theorem DualFeasible.addConstraint (h : t.DualFeasible) (c : Constraint ℚ)
    (hlen : c.coefficients.length ≤ t.nrColumns) :
    (t.addConstraint c.coefficients c.relation c.rhs).DualFeasible ∧
      (t.addConstraint c.coefficients c.relation c.rhs).objectiveValue = t.objectiveValue := by
  unfold Tableau.addConstraint
  generalize c.relation.halves = halves
  induction halves generalizing t with
  | nil => exact ⟨h, rfl⟩
  | cons half rest ih =>
    obtain ⟨hnext, hobjective⟩ := h.addInequality hlen half.sign c.rhs
    have hcolumns : (t.addInequality c.coefficients half.sign c.rhs).nrColumns = t.nrColumns + 1 :=
      h.atBasis.wellFormed.nrColumns_addInequality
    obtain ⟨hlast, hrest⟩ := ih hnext (by omega)
    exact ⟨hlast, hrest.trans hobjective⟩

theorem DualFeasible.restricts (h : t.DualFeasible) (hu : t.Restricts u) :
    u.DualFeasible ∧ u.objectiveValue = t.objectiveValue := by
  induction hu with
  | start => exact ⟨h, rfl⟩
  | addConstraint c _ hlen ih =>
    obtain ⟨hnext, hobjective⟩ := ih.1.addConstraint c hlen
    exact ⟨hnext, hobjective.trans ih.2⟩

end Tableau

end LinearProgramming
