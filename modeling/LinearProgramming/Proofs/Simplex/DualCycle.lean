import LinearProgramming.Proofs.Simplex.Cycle
import LinearProgramming.Proofs.Simplex.DualFeasible

/-! # Cycles of the dual method

The next pivot of the dual method is determined by the tableau, so a run is the iteration of one function,
`Tableau.dualNext`, as long as a pivot is due. A run that makes more pivots than there are bases comes to some basis
twice, hence to the same tableau twice (`Tableau.DualFeasible.exists_cycle`), and then goes round for ever
(`Tableau.DualCycle.dualDue_iterate`).

From a dual feasible tableau the objective value never rises, so it is the same all the way round, and only columns
without a relative cost enter (`Tableau.DualCycle.relativeCost_eq_zero`). No tie break of the dual method keeps it from
such a cycle, see `Tableau.stallingTableau`. -/

namespace LinearProgramming.Tableau

variable {t : Tableau ℚ} {s : Session ℚ} {row column i j k n : ℕ}

/-! ### One pivot after the other -/

def dualDue (t : Tableau ℚ) : Bool :=
  match t.dualMove 0 with
  | .pivot _ _ => true
  | .stop _ => false

def dualNext (t : Tableau ℚ) : Tableau ℚ :=
  match t.dualMove 0 with
  | .pivot row column => t.pivot column row
  | .stop _ => t

theorem dualNext_of_dualChoice (h : t.DualChoice 0 row column) : t.dualNext = t.pivot column row := by
  rw [DualChoice] at h
  simp only [dualNext, h]

theorem dualDue_iff : t.dualDue = true ↔ ∃ row column, t.DualChoice 0 row column := by
  unfold dualDue DualChoice
  cases t.dualMove 0 with
  | stop outcome => simp
  | pivot row column => simp

theorem pivotLoop_dualLoop : PivotLoop dualDue dualNext dualLoop (fun run => ∃ outcome, run.result = .ok outcome)
    fun settings t run => run.tableau = t ∧ run.result = .error (.pivotLimit settings.maxPivots) := by
  refine ⟨fun n t s hs hdue => ?_, fun t s hs hdue => ?_, fun n t s hs hdue => ?_⟩
  · unfold dualLoop
    rw [hs]
    cases hmove : t.dualMove 0 with
    | stop outcome => exact ⟨outcome, rfl⟩
    | pivot row column =>
      rw [dualDue_iff.mpr ⟨row, column, hmove⟩] at hdue
      cases hdue
  · obtain ⟨row, column, hmove⟩ := dualDue_iff.mp hdue
    rw [DualChoice] at hmove
    unfold dualLoop
    rw [hs, hmove]
    exact ⟨rfl, rfl⟩
  · obtain ⟨row, column, hmove⟩ := dualDue_iff.mp hdue
    refine ⟨s.recordPivot (.dualPivot row column) (t.pivot column row), Session.settings_recordPivot .., ?_⟩
    rw [dualNext_of_dualChoice hmove]
    rw [DualChoice] at hmove
    rw [dualLoop, hs, hmove]

/-- A run with room for `n` pivots reaches its limit if one more is due after all of them, and else it ends. -/
theorem dualLoop_iterate (n : ℕ) (t : Tableau ℚ) (hs : s.tolerance = 0) :
    ((∀ k ≤ n, (dualNext^[k] t).dualDue = true) ∧ (dualLoop n t s).tableau = dualNext^[n] t ∧
      (dualLoop n t s).result = .error (.pivotLimit s.settings.maxPivots)) ∨
    ((∃ k ≤ n, (dualNext^[k] t).dualDue = false) ∧ ∃ outcome, (dualLoop n t s).result = .ok outcome) :=
  pivotLoop_dualLoop.cases n t hs

/-! ### Going round -/

/-- The tableau after `j` pivots is the one after `i` of them, and all these pivots are made. -/
structure DualCycle (t : Tableau ℚ) (i j : ℕ) : Prop where
  lt : i < j
  due : ∀ k < j, (dualNext^[k] t).dualDue = true
  back : dualNext^[j] t = dualNext^[i] t

theorem DualCycle.dualDue_iterate (h : t.DualCycle i j) (k : ℕ) : (dualNext^[k] t).dualDue = true :=
  due_of_back h.lt h.due h.back k

theorem DualCycle.dual_eq (h : t.DualCycle i j) (hs : s.tolerance = 0) :
    (t.dual s).tableau = dualNext^[s.settings.maxPivots] t ∧
      (t.dual s).result = .error (.pivotLimit s.settings.maxPivots) := by
  obtain ⟨-, hend⟩ | ⟨⟨k, -, hstop⟩, -⟩ := dualLoop_iterate s.settings.maxPivots t hs
  · exact hend
  · rw [h.dualDue_iterate k] at hstop
    cases hstop

namespace DualFeasible

variable (h : t.DualFeasible)
include h

theorem dualNext : t.dualNext.DualFeasible ∧ t.Rewrites t.dualNext ∧ t.dualNext.objectiveValue ≤ t.objectiveValue := by
  cases hdue : t.dualDue with
  | true =>
    obtain ⟨row, column, hchoice⟩ := dualDue_iff.mp hdue
    rw [dualNext_of_dualChoice hchoice]
    obtain ⟨hnext, hdescends⟩ := h.pivot hchoice
    exact ⟨hnext, (h.atBasis.dualPivot_of_dualChoice hchoice).rewrites h.atBasis, hdescends.objectiveValue_le⟩
  | false =>
    have hsame : t.dualNext = t := by
      unfold dualDue at hdue
      unfold Tableau.dualNext
      cases hmove : t.dualMove 0 with
      | stop outcome => rfl
      | pivot row column => simp only [hmove, Bool.true_eq_false] at hdue
    rw [hsame]
    exact ⟨h, .refl h.atBasis, le_rfl⟩

theorem iterate (k : ℕ) : (Tableau.dualNext^[k] t).DualFeasible ∧ t.Rewrites (Tableau.dualNext^[k] t) := by
  induction k with
  | zero => exact ⟨h, .refl h.atBasis⟩
  | succ k ih =>
    obtain ⟨hnext, hrewrites, -⟩ := ih.1.dualNext
    rw [Function.iterate_succ_apply']
    exact ⟨hnext, ih.2.trans hrewrites⟩

theorem antitone_objectiveValue : Antitone fun k => (Tableau.dualNext^[k] t).objectiveValue := by
  refine antitone_nat_of_succ_le fun k => ?_
  rw [Function.iterate_succ_apply']
  exact (h.iterate k).1.dualNext.2.2

theorem iterate_eq (hbasis : (Tableau.dualNext^[i] t).basis = (Tableau.dualNext^[j] t).basis) :
    Tableau.dualNext^[i] t = Tableau.dualNext^[j] t := by
  obtain ⟨hi, hrewrites⟩ := h.iterate i
  obtain ⟨hj, hrewrites'⟩ := h.iterate j
  exact hj.atBasis.eq_of_equivalent hi.atBasis (hrewrites'.equivalent.symm.trans hrewrites.equivalent) hbasis

theorem exists_cycle (hdue : ∀ k ≤ t.nrColumns ^ t.nrRows, (Tableau.dualNext^[k] t).dualDue = true) :
    ∃ i j, t.DualCycle i j := by
  have hwf : ∀ k, (Tableau.dualNext^[k] t).WellFormed := fun k => (h.iterate k).2.atBasis.wellFormed
  have hequivalent : ∀ k, t.Equivalent (Tableau.dualNext^[k] t) := fun k => (h.iterate k).2.equivalent
  obtain ⟨i, j, hlt, hle, hbasis⟩ := exists_basis_eq (fun k => (Tableau.dualNext^[k] t).basis)
    (fun k => (hwf k).basis_length.trans (hequivalent k).nrRows_eq)
    (fun k column hcolumn => (hequivalent k).nrColumns_eq ▸ (hwf k).basis_lt column hcolumn)
  exact ⟨i, j, hlt, fun k hk => hdue k (by omega), (h.iterate_eq hbasis).symm⟩

end DualFeasible

theorem DualCycle.relativeCost_eq_zero (h : t.DualCycle i j) (ht : t.DualFeasible) (hik : i ≤ k) (hkj : k < j)
    (hchoice : (dualNext^[k] t).DualChoice 0 row column) :
    (dualNext^[k] t).relativeCost column = 0 ∧
      (dualNext^[k + 1] t).objectiveValue = (dualNext^[k] t).objectiveValue := by
  have hsame : (dualNext^[k + 1] t).objectiveValue = (dualNext^[k] t).objectiveValue := by
    refine le_antisymm (ht.antitone_objectiveValue (Nat.le_succ k)) ?_
    have hdown : (dualNext^[k] t).objectiveValue ≤ (dualNext^[i] t).objectiveValue := ht.antitone_objectiveValue hik
    rw [← h.back] at hdown
    exact hdown.trans (ht.antitone_objectiveValue hkj)
  refine ⟨?_, hsame⟩
  have hfeasible := (ht.iterate k).1
  have hpivot := hfeasible.atBasis.dualPivot_of_dualChoice hchoice
  have hstep : 0 < (dualNext^[k] t).rhs row / (dualNext^[k] t).entry row column :=
    div_pos_of_neg_of_neg hpivot.rhs_neg hpivot.entry_neg
  rw [Function.iterate_succ_apply', dualNext_of_dualChoice hchoice, objectiveValue_pivot hfeasible.atBasis.wellFormed
    hpivot.row_lt hpivot.column_lt hpivot.entry_neg.ne, sub_eq_self, mul_eq_zero] at hsame
  exact hsame.resolve_right hstep.ne'

/-- From a dual feasible tableau in exact arithmetic, the dual method finds an answer once it may make as many pivots as
there can be bases, unless the run comes back to a tableau that it was at before. In that case only columns without a
relative cost enter between the two times, the objective value stays the same, and every run ends at the pivot limit,
however large. -/
theorem exists_ok_dual_or_cycle (hwf : t.WellFormed) (hunit : t.hasUnitBasis 0 = true)
    (hcost : ∀ j < t.nrColumns, 0 ≤ t.relativeCost j) :
    (∀ s : Session ℚ, s.settings.tolerances.general = 0 → t.nrColumns ^ t.nrRows ≤ s.settings.maxPivots →
      ∃ outcome, (t.dual s).result = .ok outcome) ∨
    ∃ i j, t.DualCycle i j ∧
      (∀ k row column, i ≤ k → k < j → (dualNext^[k] t).DualChoice 0 row column →
        (dualNext^[k] t).relativeCost column = 0 ∧
          (dualNext^[k + 1] t).objectiveValue = (dualNext^[k] t).objectiveValue) ∧
      ∀ s : Session ℚ, s.settings.tolerances.general = 0 →
        (t.dual s).tableau = dualNext^[s.settings.maxPivots] t ∧
          (t.dual s).result = .error (.pivotLimit s.settings.maxPivots) := by
  have ht : t.DualFeasible := ⟨⟨hwf, hwf.unitAt_of_hasUnitBasis hunit⟩, hcost⟩
  by_cases hdue : ∀ k ≤ t.nrColumns ^ t.nrRows, (dualNext^[k] t).dualDue = true
  · obtain ⟨i, j, hcycle⟩ := ht.exists_cycle hdue
    exact .inr ⟨i, j, hcycle, fun k row column hik hkj => hcycle.relativeCost_eq_zero ht hik hkj,
      fun s hs => hcycle.dual_eq hs⟩
  · refine .inl fun s hs hpivots => ?_
    obtain ⟨hall, -⟩ | ⟨-, hok⟩ := dualLoop_iterate s.settings.maxPivots t hs
    · exact absurd (fun k hk => hall k (hk.trans hpivots)) hdue
    · exact hok

/-- A tableau where the first two dual pivots enter columns without a relative cost and the third one does not. -/
def descendingTableau : Tableau ℚ :=
  ofMatrix (RowMatrix.ofRows
    [[0, 0, 1, 0, 0, 0],
     [-1, -1, -2, 1, 0, -1],
     [1, 0, -1, 0, 1, -1]]) [3, 4]

theorem exists_ok_dual_or_cycle_descendingTableau :
    descendingTableau.WellFormed ∧ descendingTableau.hasUnitBasis 0 = true ∧
    (∀ j < descendingTableau.nrColumns, 0 ≤ descendingTableau.relativeCost j) ∧
    ∀ s : Session ℚ, s.settings.tolerances.general = 0 → 25 ≤ s.settings.maxPivots →
      ∃ outcome, (descendingTableau.dual s).result = .ok outcome := by
  have hwf : descendingTableau.WellFormed :=
    wellFormed_ofMatrix (by simp [RowMatrix.IsRectangular, RowMatrix.ofRows]) (by decide) (by decide) (by decide)
      (by decide) (by decide)
  have hunit : descendingTableau.hasUnitBasis 0 = true := by decide +kernel
  have hcost : ∀ j < descendingTableau.nrColumns, 0 ≤ descendingTableau.relativeCost j := by decide +kernel
  refine ⟨hwf, hunit, hcost, ?_⟩
  obtain hok | ⟨i, j, hcycle, -⟩ := exists_ok_dual_or_cycle hwf hunit hcost
  · exact hok
  · have hend : (dualNext^[4] descendingTableau).dualDue = false := by decide +kernel
    rw [hcycle.dualDue_iterate 4] at hend
    cases hend

/-- A dual feasible tableau from which the dual method goes round in a cycle of twelve bases. -/
def stallingTableau : Tableau ℚ :=
  ofMatrix (RowMatrix.ofRows
    [[0, 0, 1, 0, 0, 0, 0, 0],
     [-1, -1 / 2, -1, 1, 0, 0, 0, -1],
     [6, 2, 0, 0, 1, 0, 0, 3],
     [2, 1 / 2, -1, 0, 0, 1, 0, -1 / 2],
     [-6, -1, 0, 0, 0, 0, 1, 3]]) [3, 4, 5, 6]

theorem dualCycle_stallingTableau : stallingTableau.DualCycle 0 12 :=
  ⟨by decide, by decide +kernel, by decide +kernel⟩

-- The tableau has a feasible point, so there is an answer that the runs miss.
theorem not_exists_bound_dual_stallingTableau :
    stallingTableau.WellFormed ∧ stallingTableau.hasUnitBasis 0 = true ∧
    (∀ j < stallingTableau.nrColumns, 0 ≤ stallingTableau.relativeCost j) ∧
    stallingTableau.Feasible (ofList [0, 1 / 2, 3 / 4, 0, 2, 0, 7 / 2]) ∧
    ¬ ∃ N, ∀ s : Session ℚ, s.settings.tolerances.general = 0 → N ≤ s.settings.maxPivots →
      ∀ limit, (stallingTableau.dual s).result ≠ .error (.pivotLimit limit) := by
  have hwf : stallingTableau.WellFormed :=
    wellFormed_ofMatrix (by simp [RowMatrix.IsRectangular, RowMatrix.ofRows]) (by decide) (by decide) (by decide)
      (by decide) (by decide)
  refine ⟨hwf, by decide +kernel, by decide +kernel, ⟨by unfold Satisfies; decide +kernel, by decide +kernel⟩, ?_⟩
  rintro ⟨N, hN⟩
  let s : Session ℚ := .start { (Settings.standard : Settings ℚ) with tolerances := ⟨0, 0, 0⟩, maxPivots := N }
  exact hN s rfl le_rfl N (dualCycle_stallingTableau.dual_eq rfl).2

end LinearProgramming.Tableau
