import LinearProgramming.Proofs.Integer.CuttingPlane
import LinearProgramming.Proofs.Simplex.Trail

/-! # Replaying the trail of a solve

The trail is written at several places: before the first phase, after every pivot of either phase and after every cut.
`Replays` says of a list of records that each one follows from the one before it alone: a pivot on the row and column
that its phase chooses, or the cut that is read from the tableau. No dual pivot comes right after a primal one, so
between two cuts all dual pivots come first (`Replays.exists_cut_between`).

What a solve or the cutting plane method records replays in this sense, up to the tableau of the solution, and accounts
for all pivots and cuts (`CanonicalForm.trail_replays`), also when a limit ends the run. Nothing is assumed about the
arithmetic. -/

namespace LinearProgramming

variable {α : Type}

def Event.isCut : Event α → Bool
  | cut _ => true
  | _ => false

/-! ### Records that follow from each other -/

variable [Scalar α]

/-- The records follow one after the other from the first record, at a tolerance, and end with the last one. A cut is
read with the columns that are known to be integer, to which it adds its slack column. -/
inductive Replays (ε : α) : List Bool → Record α → List (Record α) → List Bool → Record α → Prop
  | done (mask : List Bool) (r : Record α) : Replays ε mask r [] mask r
  | dualPivot {mask mask' : List Bool} {r last : Record α} {records : List (Record α)} {row column : ℕ} :
      r.event.isPrimalPivot = false → r.tableau.DualChoice ε row column →
      Replays ε mask ⟨.dualPivot row column, r.tableau.pivot column row⟩ records mask' last →
      Replays ε mask r (⟨.dualPivot row column, r.tableau.pivot column row⟩ :: records) mask' last
  | primalPivot {mask mask' : List Bool} {r last : Record α} {records : List (Record α)} {row column : ℕ} :
      r.tableau.PrimalChoice .steepest ε row column →
      Replays ε mask ⟨.primalPivot row column, r.tableau.pivot column row⟩ records mask' last →
      Replays ε mask r (⟨.primalPivot row column, r.tableau.pivot column row⟩ :: records) mask' last
  | cut {mask mask' : List Bool} {r last : Record α} {records : List (Record α)} {cut : Cut α} :
      r.tableau.cut? mask ε = some cut →
      Replays ε (mask ++ [true]) ⟨.cut cut.sourceRow, r.tableau.addCut cut⟩ records mask' last →
      Replays ε mask r (⟨.cut cut.sourceRow, r.tableau.addCut cut⟩ :: records) mask' last

namespace Replays

variable {ε : α} {mask mask' mask'' : List Bool} {r r' r'' : Record α} {records records' : List (Record α)}

theorem trans (h : Replays ε mask r records mask' r') (h' : Replays ε mask' r' records' mask'' r'') :
    Replays ε mask r (records ++ records') mask'' r'' := by
  induction h with
  | done mask r => exact h'
  | dualPivot hprimal hchosen _ ih => exact .dualPivot hprimal hchosen (ih h')
  | primalPivot hchosen _ ih => exact .primalPivot hchosen (ih h')
  | cut hcut _ ih => exact .cut hcut (ih h')

theorem getLastD_eq (h : Replays ε mask r records mask' r') : records.getLastD r = r' := by
  induction h with
  | done mask r => rfl
  | dualPivot _ _ _ ih => rw [List.getLastD_cons, ih]
  | primalPivot _ _ ih => rw [List.getLastD_cons, ih]
  | cut _ _ ih => rw [List.getLastD_cons, ih]

theorem mask_eq (h : Replays ε mask r records mask' r') :
    mask' = mask ++ List.replicate (records.countP (·.event.isCut)) true := by
  induction h with
  | done mask r => exact (List.append_nil mask).symm
  | dualPivot _ _ _ ih => exact ih
  | primalPivot _ _ ih => exact ih
  | cut _ _ ih =>
    rw [ih, List.append_assoc, List.countP_cons_of_pos rfl, List.replicate_succ]
    rfl

theorem countP_isCut_eq_zero (h : Replays ε mask r records mask r') : records.countP (·.event.isCut) = 0 := by
  have hlength := congrArg List.length h.mask_eq
  rw [List.length_append, List.length_replicate] at hlength
  omega

theorem exists_of_append (h : Replays ε mask r (records ++ records') mask' r') :
    ∃ between, Replays ε between (records.getLastD r) records' mask' r' := by
  induction records generalizing mask r with
  | nil => exact ⟨mask, h⟩
  | cons next records ih =>
    rw [List.getLastD_cons]
    cases h with
    | dualPivot _ _ hrest => exact ih hrest
    | primalPivot _ hrest => exact ih hrest
    | cut _ hrest => exact ih hrest

theorem exists_cut_of_primal_dual {d : Record α} (h : Replays ε mask r (records ++ d :: records') mask' r')
    (hr : r.event.isPrimalPivot = true) (hd : d.event.isDualPivot = true) : ∃ q ∈ records, q.event.isCut = true := by
  induction records generalizing mask r with
  | nil =>
    cases h with
    | dualPivot hprimal => rw [hr] at hprimal; cases hprimal
    | primalPivot => cases hd
    | cut => cases hd
  | cons next records ih =>
    cases h with
    | dualPivot hprimal => rw [hr] at hprimal; cases hprimal
    | primalPivot _ hrest =>
      obtain ⟨q, hq, hcut⟩ := ih hrest rfl
      exact ⟨q, List.mem_cons_of_mem _ hq, hcut⟩
    | cut => exact ⟨_, List.mem_cons_self, rfl⟩

/-- Between a primal pivot and a later dual pivot there is a cut. -/
theorem exists_cut_between {before between after : List (Record α)} {p d : Record α}
    (h : Replays ε mask r (before ++ p :: (between ++ d :: after)) mask' r') (hp : p.event.isPrimalPivot = true)
    (hd : d.event.isDualPivot = true) : ∃ q ∈ between, q.event.isCut = true := by
  rw [List.append_cons] at h
  obtain ⟨_, hrest⟩ := h.exists_of_append
  rw [List.getLastD_concat] at hrest
  exact hrest.exists_cut_of_primal_dual hp hd

end Replays

/-! ### Simplex runs -/

section Runs

variable {mask : List Bool} {r : Record α} {records : List (Record α)} {ε : α} {t u : Tableau α}

theorem replays_of_dualPath (h : ChosenPath .dualPivot (Tableau.DualChoice ε) t records u) (ht : r.tableau = t)
    (hr : r.event.isPrimalPivot = false) : ∃ last, Replays ε mask r records mask last ∧ last.tableau = u := by
  induction h generalizing r with
  | done t => exact ⟨r, .done mask r, ht⟩
  | pivot hchosen _ ih =>
    subst ht
    obtain ⟨last, hreplays, hlast⟩ := ih (r := ⟨.dualPivot _ _, _⟩) rfl rfl
    exact ⟨last, .dualPivot hr hchosen hreplays, hlast⟩

theorem replays_of_primalPath (h : ChosenPath .primalPivot (Tableau.PrimalChoice .steepest ε) t records u)
    (ht : r.tableau = t) : ∃ last, Replays ε mask r records mask last ∧ last.tableau = u := by
  induction h generalizing r with
  | done t => exact ⟨r, .done mask r, ht⟩
  | pivot hchosen _ ih =>
    subst ht
    obtain ⟨last, hreplays, hlast⟩ := ih (r := ⟨.primalPivot _ _, _⟩) rfl
    exact ⟨last, .primalPivot hchosen hreplays, hlast⟩

/-- From a record on that is not a primal pivot, a solve adds records that replay up to its last tableau. There is no
cut among them, so the mask stays. -/
theorem Tableau.replays_solve (mask : List Bool) (hr : r.event.isPrimalPivot = false) (s : Session α) :
    ∃ records last, Replays s.tolerance mask r records mask last ∧ last.tableau = (r.tableau.solve s).tableau ∧
      s.Logs records (r.tableau.solve s).session := by
  obtain ⟨dualRecords, primalRecords, feasible, hdual, hprimal, hlogs⟩ := r.tableau.exists_chosen_solve s
  obtain ⟨middle, hreplays, hmiddle⟩ := replays_of_dualPath hdual rfl hr
  obtain ⟨last, hreplays', hlast⟩ := replays_of_primalPath hprimal hmiddle
  exact ⟨_, last, hreplays.trans hreplays', hlast, hlogs⟩

end Runs

/-! ### Cuts -/

/-- The report fits the records of the run: it has the cuts among them, on top of the earlier ones, and its solution is
read from the tableau of the last one. -/
structure CutReport.Fits (report : CutReport α) (earlier : ℕ) (records : List (Record α)) (last : Record α) : Prop where
  nrCuts_eq : report.nrCuts = earlier + records.countP (·.event.isCut)
  tableau_eq : ∀ solution, report.outcome = .optimal solution → solution.tableau = last.tableau

namespace CanonicalForm

variable {c : CanonicalForm α}

/-- The method ends with the tableau that it has solved, or it appends a cut and goes on. -/
theorem cutLoop_cases (c : CanonicalForm α) (remaining nrCuts : ℕ) (mask : List Bool) (t : Tableau α) (s : Session α) :
    ((c.cutLoop remaining nrCuts mask t s).2 = (t.solve s).session ∧
      ∀ report, (c.cutLoop remaining nrCuts mask t s).1 = .ok report → report.nrCuts = nrCuts ∧
        ∀ solution, report.outcome = .optimal solution → solution.tableau = (t.solve s).tableau) ∨
    ∃ n cut, remaining = n + 1 ∧ (t.solve s).tableau.cut? mask s.tolerance = some cut ∧
      c.cutLoop remaining nrCuts mask t s = c.cutLoop n (nrCuts + 1) (mask ++ [true])
        ((t.solve s).tableau.addCut cut)
        ((t.solve s).session.record (.cut cut.sourceRow) ((t.solve s).tableau.addCut cut)) := by
  rw [cutLoop.eq_def]
  cases hresult : (t.solve s).result with
  | error e =>
    simp only [hresult]
    exact .inl ⟨trivial, fun _ hok => by cases hok⟩
  | ok outcome =>
    cases outcome with
    | infeasible =>
      simp only [hresult, Except.ok.injEq, forall_eq']
      exact .inl ⟨trivial, trivial, fun _ h => by cases h⟩
    | unbounded =>
      simp only [hresult, Except.ok.injEq, forall_eq']
      exact .inl ⟨trivial, trivial, fun _ h => by cases h⟩
    | optimal values =>
      cases hcut : (t.solve s).tableau.cut? mask s.tolerance with
      | none =>
        simp only [hresult, hcut, Except.ok.injEq, forall_eq', Outcome.optimal.injEq]
        exact .inl ⟨trivial, trivial, rfl⟩
      | some cut =>
        cases remaining with
        | zero =>
          simp only [hresult, hcut]
          exact .inl ⟨trivial, fun _ hok => by cases hok⟩
        | succ n =>
          simp only [hresult, hcut]
          exact .inr ⟨n, cut, rfl, rfl, rfl⟩

theorem replays_cutLoop (c : CanonicalForm α) (remaining nrCuts : ℕ) (mask : List Bool) (s : Session α) {r : Record α}
    (hr : r.event.isPrimalPivot = false) :
    ∃ records mask' last, Replays s.tolerance mask r records mask' last ∧
      s.Logs records (c.cutLoop remaining nrCuts mask r.tableau s).2 ∧
      ∀ report, (c.cutLoop remaining nrCuts mask r.tableau s).1 = .ok report → report.Fits nrCuts records last := by
  induction remaining using Nat.strong_induction_on generalizing nrCuts mask s r with
  | _ remaining ih =>
    obtain ⟨records, solved, hreplays, hsolved, hlogs⟩ := Tableau.replays_solve mask hr s
    obtain ⟨hsession, hreport⟩ | ⟨n, cut, rfl, hcut, heq⟩ := c.cutLoop_cases remaining nrCuts mask r.tableau s
    · refine ⟨records, mask, solved, hreplays, by rwa [hsession], fun report hok => ?_⟩
      obtain ⟨hcuts, htableau⟩ := hreport report hok
      refine ⟨by rw [hcuts, hreplays.countP_isCut_eq_zero, Nat.add_zero], fun solution hsolution => ?_⟩
      rw [htableau solution hsolution, hsolved]
    · rw [← hsolved] at hcut heq
      obtain ⟨records', mask', last, hreplays', hlogs', hreport⟩ := ih n (Nat.lt_succ_self n) (nrCuts + 1)
        (mask ++ [true]) ((r.tableau.solve s).session.record (.cut cut.sourceRow) (solved.tableau.addCut cut))
        (r := ⟨.cut cut.sourceRow, solved.tableau.addCut cut⟩) rfl
      have hcutLogs := (hlogs.trans (.record _ rfl _)).trans hlogs'
      rw [Session.tolerance_record, hlogs.tolerance_eq] at hreplays'
      rw [heq]
      refine ⟨_, mask', last, hreplays.trans (.cut hcut hreplays'), by simpa using hcutLogs, fun report hok => ?_⟩
      obtain ⟨hcuts, htableau⟩ := hreport report hok
      refine ⟨?_, htableau⟩
      rw [hcuts, List.countP_append, hreplays.countP_isCut_eq_zero, List.countP_cons_of_pos rfl]
      omega

/-! ### The whole trail -/

def initialRecord (c : CanonicalForm α) : Record α := ⟨.initial, c.tableau⟩

/-- All that was recorded between two sessions: the first tableau and then records that replay from it, dual pivots
before primal ones up to the next cut. The pivots among them are counted. -/
structure Recorded (c : CanonicalForm α) (columns : List Bool) (s : Session α) (records : List (Record α))
    (s' : Session α) : Prop where
  trail_eq : s'.trail.toList = s.trail.toList ++ c.initialRecord :: records
  replays : ∃ mask, Replays s.tolerance columns c.initialRecord records mask (records.getLastD c.initialRecord)
  exists_cut_between : ∀ before p between d after, records = before ++ p :: (between ++ d :: after) →
    p.event.isPrimalPivot = true → d.event.isDualPivot = true → ∃ q ∈ between, q.event.isCut = true
  nrPivots_eq : s'.nrPivots = s.nrPivots + records.countP (·.event.isPivot)

theorem recorded_of_logs {s s' : Session α} {columns mask : List Bool} {records : List (Record α)} {last : Record α}
    (hrecord : s.settings.recordIterations = true)
    (hreplays : Replays (s.record .initial c.tableau).tolerance columns c.initialRecord records mask last)
    (hlogs : (s.record .initial c.tableau).Logs records s') : c.Recorded columns s records s' := by
  have hall := (Session.Logs.record s rfl c.tableau).trans hlogs
  rw [Session.tolerance_record] at hreplays
  refine ⟨hall.trail_eq hrecord, ⟨mask, hreplays.getLastD_eq ▸ hreplays⟩, ?_, ?_⟩
  · rintro before p between d after rfl hp hd
    exact hreplays.exists_cut_between hp hd
  · rw [hlogs.nrPivots_eq, Session.nrPivots_record]

theorem tableau_of_solve_eq_ok {s : Session α} {solution : Solution α} (hok : (c.solve s).1 = .ok (.optimal solution)) :
    solution.tableau = (c.tableau.solve (s.record .initial c.tableau)).tableau := by
  simp only [solve] at hok
  cases hresult : (c.tableau.solve (s.record .initial c.tableau)).result with
  | error e =>
    rw [hresult] at hok
    cases hok
  | ok outcome =>
    rw [hresult] at hok
    cases outcome with
    | infeasible => cases hok
    | unbounded => cases hok
    | optimal values =>
      obtain rfl := Outcome.optimal.inj (Except.ok.inj hok)
      rfl

/-- With recording, the trail of a solve and of the cutting plane method replays the computation, also of a run that a
limit ends. The number of cuts and the tableau of the solution are those of the trail. Nothing is recorded if the
method does not apply. -/
theorem trail_replays (c : CanonicalForm α) (s : Session α) (hrecord : s.settings.recordIterations = true) :
    (∃ records, c.Recorded [] s records (c.solve s).2 ∧ records.countP (·.event.isCut) = 0 ∧
      ∀ solution, (c.solve s).1 = .ok (.optimal solution) →
        solution.tableau = (records.getLastD c.initialRecord).tableau) ∧
    (∀ columns, c.cutColumns = .ok columns → ∃ records, c.Recorded columns s records (c.cuttingPlane s).2 ∧
      ∀ report, (c.cuttingPlane s).1 = .ok report → report.Fits 0 records (records.getLastD c.initialRecord)) ∧
    ∀ e, c.cutColumns = .error e → c.cuttingPlane s = (.error e, s) := by
  refine ⟨?_, fun columns hcolumns => ?_, fun e he => ?_⟩
  · obtain ⟨records, last, hreplays, hlast, hlogs⟩ := Tableau.replays_solve (r := c.initialRecord) [] rfl
      (s.record .initial c.tableau)
    refine ⟨records, recorded_of_logs hrecord hreplays hlogs, hreplays.countP_isCut_eq_zero, fun solution hok => ?_⟩
    rw [hreplays.getLastD_eq, tableau_of_solve_eq_ok hok]
    exact hlast.symm
  · obtain ⟨records, mask, last, hreplays, hlogs, hreport⟩ := c.replays_cutLoop s.settings.maxCuts 0 columns
      (s.record .initial c.tableau) (r := c.initialRecord) rfl
    have hrun : c.cuttingPlane s =
        c.cutLoop s.settings.maxCuts 0 columns c.tableau (s.record .initial c.tableau) := by
      rw [cuttingPlane, hcolumns]
    rw [hrun]
    refine ⟨records, recorded_of_logs hrecord hreplays hlogs, ?_⟩
    rw [hreplays.getLastD_eq]
    exact hreport
  · rw [cuttingPlane, he]

end CanonicalForm

/-- A session without tolerances in which one cut may be made. -/
def Session.oneCut : Session ℚ :=
  start { (Settings.standard : Settings ℚ) with tolerances := ⟨0, 0, 0⟩, maxCuts := 1 }

-- The method makes two cuts, or ends with an error once the second one is due.
theorem CanonicalForm.trail_replays_cuttingModel :
    let c := CanonicalForm.ofModel cuttingModel
    Session.exact.settings.recordIterations = true ∧ Session.oneCut.settings.recordIterations = true ∧
      c.cutColumns = .ok [true, true, true, true] ∧
      (∃ report records, (c.cuttingPlane .exact).1 = .ok report ∧ report.nrCuts = 2 ∧
        c.Recorded [true, true, true, true] .exact records (c.cuttingPlane .exact).2 ∧
        records.countP (·.event.isCut) = 2) ∧
      (c.cuttingPlane .oneCut).1 = .error (.cutLimit 1) ∧
      ∃ records, c.Recorded [true, true, true, true] .oneCut records (c.cuttingPlane .oneCut).2 ∧
        (c.initialRecord :: records).map (·.event) =
          [.initial, .primalPivot 0 1, .primalPivot 1 0, .cut 0, .dualPivot 2 2] := by
  intro c
  have hcolumns : c.cutColumns = .ok [true, true, true, true] := by decide +kernel
  have hcuts : (c.cuttingPlane .exact).1.map (·.nrCuts) = .ok 2 := by decide +kernel
  have hlimit : (c.cuttingPlane .oneCut).1 = .error (.cutLimit 1) := by decide +kernel
  obtain ⟨-, hexact, -⟩ := c.trail_replays .exact rfl
  obtain ⟨-, honeCut, -⟩ := c.trail_replays .oneCut rfl
  obtain ⟨records, hrecorded, hfits⟩ := hexact _ hcolumns
  obtain ⟨records', hrecorded', -⟩ := honeCut _ hcolumns
  have hevents : (c.cuttingPlane .oneCut).2.trail.toList.map (·.event) =
      [.initial, .primalPivot 0 1, .primalPivot 1 0, .cut 0, .dualPivot 2 2] := by decide +kernel
  rw [hrecorded'.trail_eq] at hevents
  refine ⟨rfl, rfl, hcolumns, ?_, hlimit, records', hrecorded', hevents⟩
  cases hok : (c.cuttingPlane .exact).1 with
  | error e =>
    rw [hok] at hcuts
    cases hcuts
  | ok report =>
    rw [hok] at hcuts
    have htwo : report.nrCuts = 2 := Except.ok.inj hcuts
    have hcount := (hfits report hok).nrCuts_eq
    rw [htwo, Nat.zero_add] at hcount
    exact ⟨report, records, rfl, htwo, hrecorded, hcount.symm⟩

end LinearProgramming
