import LinearProgramming.Proofs.Simplex.Moves
import LinearProgramming.Simplex.Solve

/-! # What a simplex run records

The trail is only ever appended to. `Session.Extends` says which records a computation has added, if the settings ask
for recording, and `Session.Logs` that the pivots among them are counted. `PivotPath` says that a list of records replays
pivots from one tableau to another, and `ChosenPath` also how they are chosen. A simplex run adds the records of its
dual pivots, then those of its primal pivots, and together they lead from the tableau that it was given to its last one
(`Tableau.exists_chosen_solve`, `Tableau.exists_path_solve`). Nothing is assumed about the arithmetic. -/

namespace LinearProgramming

variable {α : Type}

/-! ### Sessions -/

namespace Session

@[simp] theorem settings_record (s : Session α) (event : Event α) (t : Tableau α) :
    (s.record event t).settings = s.settings := by
  unfold Session.record
  split_ifs <;> rfl

@[simp] theorem settings_recordPivot (s : Session α) (event : Event α) (t : Tableau α) :
    (s.recordPivot event t).settings = s.settings := settings_record _ event t

@[simp] theorem nrPivots_record (s : Session α) (event : Event α) (t : Tableau α) :
    (s.record event t).nrPivots = s.nrPivots := by
  unfold Session.record
  split_ifs <;> rfl

@[simp] theorem nrPivots_recordPivot (s : Session α) (event : Event α) (t : Tableau α) :
    (s.recordPivot event t).nrPivots = s.nrPivots + 1 := nrPivots_record _ event t

@[simp] theorem tolerance_record (s : Session α) (event : Event α) (t : Tableau α) :
    (s.record event t).tolerance = s.tolerance := by
  rw [tolerance, settings_record, tolerance]

@[simp] theorem tolerance_recordPivot (s : Session α) (event : Event α) (t : Tableau α) :
    (s.recordPivot event t).tolerance = s.tolerance := by
  rw [tolerance, settings_recordPivot, tolerance]

end Session

/-- The second session comes from the first one by adding records. Without recording nothing is added. -/
structure Session.Extends (s : Session α) (records : List (Record α)) (s' : Session α) : Prop where
  settings_eq : s'.settings = s.settings
  trail_eq : s.settings.recordIterations = true → s'.trail.toList = s.trail.toList ++ records

namespace Session.Extends

variable {s s' s'' : Session α} {records records' : List (Record α)}

theorem refl (s : Session α) : s.Extends [] s := ⟨rfl, fun _ => (List.append_nil _).symm⟩

theorem trans (h : s.Extends records s') (h' : s'.Extends records' s'') : s.Extends (records ++ records') s'' := by
  refine ⟨h'.settings_eq.trans h.settings_eq, fun hrecord => ?_⟩
  have hrecord' : s'.settings.recordIterations = true := by rw [h.settings_eq, hrecord]
  rw [h'.trail_eq hrecord', h.trail_eq hrecord, List.append_assoc]

theorem record (s : Session α) (event : Event α) (t : Tableau α) : s.Extends [⟨event, t⟩] (s.record event t) := by
  unfold Session.record
  split_ifs with hrecord
  · exact ⟨rfl, fun _ => Array.toList_push⟩
  · exact ⟨rfl, fun htrue => absurd htrue hrecord⟩

theorem recordPivot (s : Session α) (event : Event α) (t : Tableau α) :
    s.Extends [⟨event, t⟩] (s.recordPivot event t) := by
  have h := record { s with nrPivots := s.nrPivots + 1 } event t
  exact ⟨h.settings_eq, h.trail_eq⟩

end Session.Extends

namespace Event

def isPrimalPivot : Event α → Bool
  | primalPivot _ _ => true
  | _ => false

def isDualPivot : Event α → Bool
  | dualPivot _ _ => true
  | _ => false

def isPivot (event : Event α) : Bool := event.isPrimalPivot || event.isDualPivot

end Event

/-- The second session comes from the first one by adding records, and counts the pivots among them. -/
structure Session.Logs (s : Session α) (records : List (Record α)) (s' : Session α) : Prop
    extends s.Extends records s' where
  nrPivots_eq : s'.nrPivots = s.nrPivots + records.countP (·.event.isPivot)

namespace Session.Logs

variable {s s' s'' : Session α} {records records' : List (Record α)}

theorem refl (s : Session α) : s.Logs [] s := ⟨.refl s, rfl⟩

theorem trans (h : s.Logs records s') (h' : s'.Logs records' s'') : s.Logs (records ++ records') s'' := by
  refine ⟨h.toExtends.trans h'.toExtends, ?_⟩
  rw [h'.nrPivots_eq, h.nrPivots_eq, List.countP_append, Nat.add_assoc]

theorem record (s : Session α) {event : Event α} (hevent : event.isPivot = false) (t : Tableau α) :
    s.Logs [⟨event, t⟩] (s.record event t) := by
  refine ⟨.record s event t, ?_⟩
  rw [nrPivots_record, List.countP_singleton, hevent]
  rfl

theorem recordPivot (s : Session α) {event : Event α} (hevent : event.isPivot = true) (t : Tableau α) :
    s.Logs [⟨event, t⟩] (s.recordPivot event t) := by
  refine ⟨.recordPivot s event t, ?_⟩
  rw [nrPivots_recordPivot, List.countP_singleton, hevent]
  rfl

theorem tolerance_eq (h : s.Logs records s') : s'.tolerance = s.tolerance :=
  congrArg (·.tolerances.general) h.settings_eq

end Session.Logs

/-! ### Chosen rows and columns -/

variable [Scalar α]

theorem EnteringRule.select?_mem {rule : EnteringRule} {costs : List (ℕ × α)} {ε : α} {p : ℕ × α}
    (h : rule.select? costs ε = some p) : p ∈ costs := by
  cases rule with
  | firstProfitable => exact List.mem_of_find?_eq_some h
  | steepest => exact (List.mem_filter.mp (Scalar.firstMinimum_mem h)).1

namespace Tableau

variable {t : Tableau α} {row column : ℕ} {ε : α}

omit [Scalar α] in
theorem lt_of_mem_nonBasicColumns (h : column ∈ t.nonBasicColumns) : column < t.nrColumns :=
  List.mem_range.mp (List.mem_filter.mp h).1

theorem lt_of_mem_primalRatios {p : ℕ × α} (h : p ∈ t.primalRatios column ε) : p.1 < t.nrRows := by
  obtain ⟨i, hi, rfl⟩ := List.mem_map.mp h
  exact List.mem_range.mp (List.mem_filter.mp hi).1

theorem lt_of_dualRow?_eq_some (h : t.dualRow? ε = some row) : row < t.nrRows := by
  rw [dualRow?, Option.map_eq_some_iff] at h
  obtain ⟨p, hp, rfl⟩ := h
  obtain ⟨i, hi, rfl⟩ := List.mem_map.mp (List.mem_filter.mp (Scalar.firstMinimum_mem hp)).1
  exact List.mem_range.mp hi

theorem mem_of_dualColumn?_eq_some (h : t.dualColumn? row ε = some column) : column ∈ t.nonBasicColumns := by
  rw [dualColumn?, Option.map_eq_some_iff] at h
  obtain ⟨p, hp, rfl⟩ := h
  obtain ⟨j, hj, rfl⟩ := List.mem_map.mp (Scalar.firstMinimum_mem hp)
  exact (List.mem_filter.mp hj).1

/-- A dual pivot is on a row of the tableau and on a column that is not basic. -/
theorem mem_of_dualMove_eq_pivot (h : t.dualMove ε = .pivot row column) :
    row < t.nrRows ∧ column ∈ t.nonBasicColumns := by
  unfold dualMove at h
  split at h
  · cases h
  · next hrow =>
    split at h
    · cases h
    · next hcolumn =>
      obtain ⟨rfl, rfl⟩ := Move.pivot.inj h
      exact ⟨lt_of_dualRow?_eq_some hrow, mem_of_dualColumn?_eq_some hcolumn⟩

theorem lt_of_primalRow?_eq_some (h : t.primalRow? column ε = some row) : row < t.nrRows := by
  rw [primalRow?, Option.map_eq_some_iff] at h
  obtain ⟨p, hp, rfl⟩ := h
  exact lt_of_mem_primalRatios (Scalar.firstMinimum_mem hp)

theorem lt_of_primalRowByLowestBasic?_eq_some (h : t.primalRowByLowestBasic? column ε = some row) :
    row < t.nrRows := by
  unfold primalRowByLowestBasic? at h
  simp only at h
  split at h
  · cases h
  · obtain ⟨p, hp, rfl⟩ := List.mem_map.mp (leastBy_mem_and_le _ _ h).1
    exact lt_of_mem_primalRatios (List.mem_filter.mp hp).1

theorem mem_of_select?_eq_some {rule : EnteringRule} {p : ℕ × α} (h : rule.select? t.nonBasicCosts ε = some p) :
    p.1 ∈ t.nonBasicColumns := by
  obtain ⟨j, hj, rfl⟩ := List.mem_map.mp (EnteringRule.select?_mem h)
  exact hj

/-- A primal pivot is on a row of the tableau and on a column that is not basic. -/
theorem mem_of_primalMove_eq_pivot {rule : EnteringRule} {smallestIndex : Bool}
    (h : t.primalMove rule smallestIndex ε = .pivot row column) : row < t.nrRows ∧ column ∈ t.nonBasicColumns := by
  unfold primalMove at h
  split at h
  · cases h
  · next hselect =>
    split at h
    · cases h
    · next hrow =>
      obtain ⟨rfl, rfl⟩ := Move.pivot.inj h
      refine ⟨?_, mem_of_select?_eq_some hselect⟩
      split_ifs at hrow
      · exact lt_of_primalRowByLowestBasic?_eq_some hrow
      · exact lt_of_primalRow?_eq_some hrow

end Tableau

/-! ### Pivots -/

/-- The records are pivots of one kind, each with the tableau that it makes of the one before. They lead from the first
tableau to the last. -/
inductive PivotPath (kind : ℕ → ℕ → Event α) : Tableau α → List (Record α) → Tableau α → Prop
  | done (t : Tableau α) : PivotPath kind t [] t
  | pivot {t u : Tableau α} {records : List (Record α)} {row column : ℕ} (row_lt : row < t.nrRows)
      (column_lt : column < t.nrColumns) (rest : PivotPath kind (t.pivot column row) records u) :
      PivotPath kind t (⟨kind row column, t.pivot column row⟩ :: records) u

/-- The records are dual pivots followed by primal pivots. -/
def SolvePath (t : Tableau α) (records : List (Record α)) (u : Tableau α) : Prop :=
  ∃ dualRecords primalRecords feasible, records = dualRecords ++ primalRecords ∧
    PivotPath .dualPivot t dualRecords feasible ∧ PivotPath .primalPivot feasible primalRecords u

/-- The records are pivots of one kind, each on a row and a column that are chosen from the tableau before it. -/
inductive ChosenPath (kind : ℕ → ℕ → Event α) (chosen : Tableau α → ℕ → ℕ → Prop) :
    Tableau α → List (Record α) → Tableau α → Prop
  | done (t : Tableau α) : ChosenPath kind chosen t [] t
  | pivot {t u : Tableau α} {records : List (Record α)} {row column : ℕ} (choice : chosen t row column)
      (rest : ChosenPath kind chosen (t.pivot column row) records u) :
      ChosenPath kind chosen t (⟨kind row column, t.pivot column row⟩ :: records) u

theorem ChosenPath.pivotPath {kind : ℕ → ℕ → Event α} {chosen : Tableau α → ℕ → ℕ → Prop} {t u : Tableau α}
    {records : List (Record α)} (h : ChosenPath kind chosen t records u)
    (hinside : ∀ t row column, chosen t row column → row < t.nrRows ∧ column ∈ t.nonBasicColumns) :
    PivotPath kind t records u := by
  induction h with
  | done t => exact .done t
  | pivot choice _ ih =>
    obtain ⟨hrow, hcolumn⟩ := hinside _ _ _ choice
    exact .pivot hrow (Tableau.lt_of_mem_nonBasicColumns hcolumn) ih

namespace Tableau

def DualChoice (ε : α) (t : Tableau α) (row column : ℕ) : Prop := t.dualMove ε = .pivot row column

def PrimalChoice (rule : EnteringRule) (ε : α) (t : Tableau α) (row column : ℕ) : Prop :=
  ∃ smallestIndex, t.primalMove rule smallestIndex ε = .pivot row column

/-- One pivot of a run, in front of what the rest of the run records. -/
theorem exists_chosen_pivot {kind : ℕ → ℕ → Event α} (hkind : ∀ row column, (kind row column).isPivot = true)
    {chosen : α → Tableau α → ℕ → ℕ → Prop} {t : Tableau α} {s : Session α} {run : Run α} {row column : ℕ}
    (hchosen : chosen s.tolerance t row column)
    (h : ∃ records, ChosenPath kind (chosen (s.recordPivot (kind row column) (t.pivot column row)).tolerance)
        (t.pivot column row) records run.tableau ∧
      (s.recordPivot (kind row column) (t.pivot column row)).Logs records run.session) :
    ∃ records, ChosenPath kind (chosen s.tolerance) t records run.tableau ∧ s.Logs records run.session := by
  obtain ⟨records, hpath, hlogs⟩ := h
  rw [Session.tolerance_recordPivot] at hpath
  exact ⟨_, .pivot hchosen hpath, (Session.Logs.recordPivot s (hkind row column) _).trans hlogs⟩

theorem exists_chosen_dualLoop (remaining : ℕ) (t : Tableau α) (s : Session α) :
    ∃ records, ChosenPath .dualPivot (DualChoice s.tolerance) t records (dualLoop remaining t s).tableau ∧
      s.Logs records (dualLoop remaining t s).session := by
  induction remaining generalizing t s with
  | zero =>
    unfold dualLoop
    cases hmove : t.dualMove s.tolerance with
    | stop outcome => exact ⟨[], .done t, .refl s⟩
    | pivot row column => exact ⟨[], .done t, .refl s⟩
  | succ remaining ih =>
    unfold dualLoop
    cases hmove : t.dualMove s.tolerance with
    | stop outcome => exact ⟨[], .done t, .refl s⟩
    | pivot row column => exact exists_chosen_pivot (fun _ _ => rfl) hmove (ih _ _)

theorem exists_chosen_primalLoop (rule : EnteringRule) (remaining degenerate : ℕ) (t : Tableau α) (s : Session α) :
    ∃ records, ChosenPath .primalPivot (PrimalChoice rule s.tolerance) t records
        (primalLoop rule remaining degenerate t s).tableau ∧
      s.Logs records (primalLoop rule remaining degenerate t s).session := by
  induction remaining generalizing degenerate t s with
  | zero =>
    unfold primalLoop
    cases hmove : t.primalMove rule (s.settings.maxDegeneratePivots ≤ degenerate) s.tolerance with
    | stop outcome => exact ⟨[], .done t, .refl s⟩
    | pivot row column => exact ⟨[], .done t, .refl s⟩
  | succ remaining ih =>
    unfold primalLoop
    cases hmove : t.primalMove rule (s.settings.maxDegeneratePivots ≤ degenerate) s.tolerance with
    | stop outcome => exact ⟨[], .done t, .refl s⟩
    | pivot row column => exact exists_chosen_pivot (fun _ _ => rfl) ⟨_, hmove⟩ (ih _ _ _)

/-- A solve is a dual run that did not reach a feasible basis, or a primal run from where the dual run ended. -/
theorem solve_cases (t : Tableau α) (s : Session α) :
    (t.solve s = t.dual s ∧ ∀ values, (t.dual s).result ≠ .ok (.optimal values)) ∨
    ∃ values, (t.dual s).result = .ok (.optimal values) ∧
      t.solve s = (t.dual s).tableau.primal .steepest (t.dual s).session := by
  cases hres : (t.dual s).result with
  | error e => exact Or.inl ⟨by simp only [solve, hres], by simp⟩
  | ok outcome =>
    cases outcome with
    | optimal values => exact Or.inr ⟨values, rfl, by simp only [solve, hres]⟩
    | infeasible => exact Or.inl ⟨by simp only [solve, hres], by simp⟩
    | unbounded => exact Or.inl ⟨by simp only [solve, hres], by simp⟩

/-- A solve records its pivots and nothing else: those that the dual method chooses and then those of the primal one. -/
theorem exists_chosen_solve (t : Tableau α) (s : Session α) :
    ∃ dualRecords primalRecords feasible,
      ChosenPath .dualPivot (DualChoice s.tolerance) t dualRecords feasible ∧
      ChosenPath .primalPivot (PrimalChoice .steepest s.tolerance) feasible primalRecords (t.solve s).tableau ∧
      s.Logs (dualRecords ++ primalRecords) (t.solve s).session := by
  obtain ⟨dualRecords, hdual, hlogs⟩ := exists_chosen_dualLoop s.settings.maxPivots t s
  obtain ⟨heq, -⟩ | ⟨values, -, heq⟩ := solve_cases t s
  · rw [heq]
    exact ⟨dualRecords, [], _, hdual, .done _, by rw [List.append_nil]; exact hlogs⟩
  · obtain ⟨primalRecords, hprimal, hlogs'⟩ := exists_chosen_primalLoop .steepest
      (t.dual s).session.settings.maxPivots 0 (t.dual s).tableau (t.dual s).session
    have htolerance : (t.dual s).session.tolerance = s.tolerance := hlogs.tolerance_eq
    rw [htolerance] at hprimal
    rw [heq]
    exact ⟨dualRecords, primalRecords, _, hdual, hprimal, hlogs.trans hlogs'⟩

/-- The records lead from the tableau of a solve to the one it ends with, however it ends. -/
theorem exists_path_solve (t : Tableau α) (s : Session α) :
    ∃ records, SolvePath t records (t.solve s).tableau ∧ s.Extends records (t.solve s).session := by
  obtain ⟨dualRecords, primalRecords, feasible, hdual, hprimal, hlogs⟩ := exists_chosen_solve t s
  refine ⟨_, ⟨dualRecords, primalRecords, feasible, rfl, hdual.pivotPath ?_, hprimal.pivotPath ?_⟩, hlogs.toExtends⟩
  · exact fun _ _ _ => mem_of_dualMove_eq_pivot
  · rintro _ _ _ ⟨_, hmove⟩
    exact mem_of_primalMove_eq_pivot hmove

end Tableau

end LinearProgramming
