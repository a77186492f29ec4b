import LinearProgramming.Proofs.CanonicalForm.Shape
import LinearProgramming.Proofs.Integer.Replay
import LinearProgramming.Proofs.Integer.Trail
import LinearProgramming.Proofs.Tableau.WellFormed

/-! # All tableaus of a run are well formed

Which tableaus occur in a run is said by three relations: `Tableau.Passes` for the pivots of a simplex run,
`CanonicalForm.Cuts` for the rounds of the cutting plane method and `CanonicalForm.Searches` for the states of a branch
and bound search. The tableaus on the trail are among them (`CanonicalForm.recordsOnly_cuttingPlane`,
`CanonicalForm.recordsOnly_branchAndBoundWithin`).

They all are well formed and at least as wide as the first one, so that every index that is used lies in them
(`Model.inRange_of_occurs`). Nothing is assumed about the arithmetic. -/

namespace LinearProgramming

variable {α : Type} [Scalar α] {t u : Tableau α} {ε : α}

/-! ### Simplex runs -/

namespace Tableau

/-- The tableaus that a simplex run can come to: each pivot is one that the dual or the primal method chooses. -/
inductive Passes (ε : α) (t : Tableau α) : Tableau α → Prop
  | start : Passes ε t t
  | dual {u : Tableau α} {row column : ℕ} : Passes ε t u → u.DualChoice ε row column →
      Passes ε t (u.pivot column row)
  | primal {u : Tableau α} {row column : ℕ} {rule : EnteringRule} : Passes ε t u → u.PrimalChoice rule ε row column →
      Passes ε t (u.pivot column row)

theorem WellFormed.pivot_of_mem (h : t.WellFormed) {row column : ℕ}
    (hmove : row < t.nrRows ∧ column ∈ t.nonBasicColumns) : (t.pivot column row).WellFormed := by
  obtain ⟨hlt, hnew⟩ := h.mem_nonBasicColumns.mp hmove.2
  exact h.pivot hmove.1 hlt hnew

theorem Passes.wellFormed (h : t.Passes ε u) (ht : t.WellFormed) : u.WellFormed := by
  induction h with
  | start => exact ht
  | dual _ hchosen ih => exact ih.pivot_of_mem (mem_of_dualMove_eq_pivot hchosen)
  | primal _ hchosen ih =>
    obtain ⟨_, hmove⟩ := hchosen
    exact ih.pivot_of_mem (mem_of_primalMove_eq_pivot hmove)

theorem Passes.nrColumns_eq (h : t.Passes ε u) : u.nrColumns = t.nrColumns := by
  induction h with
  | start => rfl
  | dual _ _ ih => exact ih
  | primal _ _ ih => exact ih

end Tableau

/-- The second session comes from the first one by adding records, all of them of tableaus with the property. -/
def Session.RecordsOnly (P : Tableau α → Prop) (s s' : Session α) : Prop :=
  ∃ records, s.Extends records s' ∧ ∀ q ∈ records, P q.tableau

namespace Session.RecordsOnly

variable {P Q : Tableau α → Prop} {s s' s'' : Session α}

omit [Scalar α]

theorem refl (s : Session α) : RecordsOnly P s s := ⟨[], .refl s, by simp⟩

theorem trans (h : RecordsOnly P s s') (h' : RecordsOnly P s' s'') : RecordsOnly P s s'' := by
  obtain ⟨records, hextends, hall⟩ := h
  obtain ⟨records', hextends', hall'⟩ := h'
  exact ⟨records ++ records', hextends.trans hextends', List.forall_mem_append.mpr ⟨hall, hall'⟩⟩

theorem record (s : Session α) (event : Event α) (ht : P t) : RecordsOnly P s (s.record event t) :=
  ⟨_, .record s event t, by simpa using ht⟩

theorem mono (h : RecordsOnly P s s') (himp : ∀ t, P t → Q t) : RecordsOnly Q s s' := by
  obtain ⟨records, hextends, hall⟩ := h
  exact ⟨records, hextends, fun q hq => himp _ (hall q hq)⟩

theorem tolerance_eq (h : RecordsOnly P s s') : s'.tolerance = s.tolerance := by
  obtain ⟨_, hextends, -⟩ := h
  exact congrArg (·.tolerances.general) hextends.settings_eq

end Session.RecordsOnly

theorem ChosenPath.passes {first : Tableau α} {kind : ℕ → ℕ → Event α} {chosen : Tableau α → ℕ → ℕ → Prop}
    {records : List (Record α)} (h : ChosenPath kind chosen t records u)
    (hstep : ∀ v row column, first.Passes ε v → chosen v row column → first.Passes ε (v.pivot column row))
    (ht : first.Passes ε t) : (∀ q ∈ records, first.Passes ε q.tableau) ∧ first.Passes ε u := by
  induction h with
  | done t => exact ⟨by simp, ht⟩
  | pivot choice _ ih =>
    have hnext := hstep _ _ _ ht choice
    obtain ⟨hall, hend⟩ := ih hnext
    exact ⟨List.forall_mem_cons.mpr ⟨hnext, hall⟩, hend⟩

/-- A solve passes through the tableaus that it records, up to the one that it ends with. -/
theorem Tableau.passes_solve (t : Tableau α) (s : Session α) :
    s.RecordsOnly (t.Passes s.tolerance) (t.solve s).session ∧ t.Passes s.tolerance (t.solve s).tableau := by
  obtain ⟨dualRecords, primalRecords, feasible, hdual, hprimal, hlogs⟩ := t.exists_chosen_solve s
  obtain ⟨hall, hfeasible⟩ := hdual.passes (fun _ _ _ => .dual) .start
  obtain ⟨hall', hend⟩ := hprimal.passes (fun _ _ _ => .primal) hfeasible
  exact ⟨⟨_, hlogs.toExtends, List.forall_mem_append.mpr ⟨hall, hall'⟩⟩, hend⟩

/-! ### Rounds, states and tableaus of a run -/

namespace CanonicalForm

/-- The rounds of the cutting plane method: the columns known to be integer, the tableau and the session that each one
begins with. -/
inductive Cuts (c : CanonicalForm α) (s : Session α) : List Bool → Tableau α → Session α → Prop
  | start {columns : List Bool} : c.cutColumns = .ok columns →
      c.Cuts s columns c.tableau (s.record .initial c.tableau)
  | next {mask : List Bool} {t : Tableau α} {s' : Session α} {cut : Cut α} : c.Cuts s mask t s' →
      (t.solve s').tableau.cut? mask s'.tolerance = some cut →
      c.Cuts s (mask ++ [true]) ((t.solve s').tableau.addCut cut)
        ((t.solve s').session.record (.cut cut.sourceRow) ((t.solve s').tableau.addCut cut))

/-- The state of a search after its first waiting node, which was solved with the outcome. -/
def visitNode (c : CanonicalForm α) (state : SearchState α) (node : SearchNode α) (rest : List (SearchNode α))
    (outcome : Outcome (List α)) : SearchState α :=
  let run := node.tableau.solve state.session
  let resolved := c.resolveNode state.incumbent run.tableau outcome run.session.tolerance
  c.advance state node rest run.tableau resolved (run.session.record (.node node.id node.depth resolved) run.tableau)

/-- The states of a search between two nodes. -/
inductive Searches (c : CanonicalForm α) (s : Session α) : SearchState α → Prop
  | start : c.Searches s ⟨[⟨0, 0, c.tableau⟩], 1, 0, none, s.record .initial c.tableau⟩
  | next {state : SearchState α} {node : SearchNode α} {rest : List (SearchNode α)} {outcome : Outcome (List α)} :
      c.Searches s state → state.queue = node :: rest → (node.tableau.solve state.session).result = .ok outcome →
      c.Searches s (c.visitNode state node rest outcome)

/-- The tableaus that occur when the form is solved, searched or cut in a session. -/
inductive Occurs (c : CanonicalForm α) (s : Session α) : Tableau α → Prop
  | solve {t : Tableau α} : c.tableau.Passes s.tolerance t → c.Occurs s t
  | search {state : SearchState α} {node : SearchNode α} {t : Tableau α} : c.Searches s state → node ∈ state.queue →
      node.tableau.Passes s.tolerance t → c.Occurs s t
  | cut {mask : List Bool} {u t : Tableau α} {s' : Session α} : c.Cuts s mask u s' → u.Passes s.tolerance t →
      c.Occurs s t

/-- Every index that is used with the tableau lies in it: those of its own parts, those that are chosen from it, the
columns of the variables, and the entries of a row over the variables. -/
structure InRange (c : CanonicalForm α) (ε : α) (t : Tableau α) : Prop where
  wellFormed : t.WellFormed
  choosesInside : t.ChoosesInside ε
  placement_lt : ∀ j ∈ c.placements.flatMap Placement.indices, j < t.nrColumns
  length_row : ∀ coefficients, (c.canonicalCoefficients coefficients).length ≤ t.nrColumns
  fractional_lt : ∀ p, c.firstFractional? t c.searchVariables ε = some p → p.1 < c.nrVariables

variable {c : CanonicalForm α} {s s' : Session α} {mask : List Bool} {state : SearchState α} {node : SearchNode α}
  {rest : List (SearchNode α)} {outcome : Outcome (List α)}

/-! ### Growing tableaus -/

structure Grown (c : CanonicalForm α) (t : Tableau α) : Prop where
  wellFormed : t.WellFormed
  nrColumns_le : c.nrColumns ≤ t.nrColumns

theorem lt_of_firstFractional?_eq_some {integers : List ℕ} {p : ℕ × α}
    (h : c.firstFractional? t integers ε = some p) : p.1 < c.nrVariables := by
  obtain ⟨v, hv, rfl⟩ := List.mem_map.mp (List.mem_of_find?_eq_some h)
  obtain ⟨j, -, hj⟩ := List.mem_filterMap.mp (List.mem_filter.mp hv).1
  exact (List.findIdx?_eq_some_iff_getElem.mp hj).1

namespace Grown

theorem passes (h : c.Grown t) (hpasses : t.Passes ε u) : c.Grown u := by
  refine ⟨hpasses.wellFormed h.wellFormed, ?_⟩
  rw [hpasses.nrColumns_eq]
  exact h.nrColumns_le

theorem solve (h : c.Grown t) (s : Session α) : c.Grown (t.solve s).tableau := h.passes (t.passes_solve s).2

theorem addCut (h : c.Grown t) {cut : Cut α} (hcut : t.cut? mask ε = some cut) : c.Grown (t.addCut cut) := by
  refine ⟨h.wellFormed.addCut hcut, ?_⟩
  rw [h.wellFormed.nrColumns_addCut hcut]
  exact h.nrColumns_le.trans (Nat.le_succ _)

theorem branch (h : c.Grown t) (v : ℕ) (x : α) (side : BoundSide) : c.Grown (c.branch t v x side) := by
  have hlen : (c.canonicalCoefficients (RowMatrix.unitVector c.nrVariables v)).length ≤ t.nrColumns :=
    (Placement.length_spread ..).le.trans h.nrColumns_le
  refine ⟨h.wellFormed.addConstraint hlen side.relation (side.cutOff x), ?_⟩
  rw [CanonicalForm.branch, h.wellFormed.nrColumns_addConstraint hlen]
  exact h.nrColumns_le.trans (Nat.le_add_right _ _)

theorem inRange (h : c.Grown t) (hc : c.Sized) (ε : α) : c.InRange ε t where
  wellFormed := h.wellFormed
  choosesInside := h.wellFormed.choosesInside ε
  placement_lt j hj := (hc.placement_lt j hj).trans_le h.nrColumns_le
  length_row _ := (Placement.length_spread ..).le.trans h.nrColumns_le
  fractional_lt _ hp := lt_of_firstFractional?_eq_some hp

end Grown

/-! ### Invariants -/

theorem tolerance_of_cuts (h : c.Cuts s mask t s') : s'.tolerance = s.tolerance := by
  induction h with
  | start => exact Session.tolerance_record ..
  | @next _ t s' _ _ _ ih => rw [Session.tolerance_record, (t.passes_solve s').1.tolerance_eq, ih]

/-- The first columns are all integer, and each cut adds one column to the tableau and one mark to the mask. -/
theorem grown_of_cuts (hc : c.Grown c.tableau)
    (hderived : c.integerColumns = deriveIntegerColumns c.tableau c.placements c.integerVariables)
    (h : c.Cuts s mask t s') : c.Grown t ∧ mask.length = t.nrColumns := by
  induction h with
  | start hcolumns =>
    obtain ⟨hmarks, -⟩ := cutColumns_eq_ok hderived hcolumns
    exact ⟨hc, by rw [hmarks, List.length_replicate]⟩
  | @next mask t s' cut _ hcut ih =>
    obtain ⟨hgrown, hlength⟩ := ih
    have hsolved := hgrown.solve s'
    refine ⟨hsolved.addCut hcut, ?_⟩
    rw [hsolved.wellFormed.nrColumns_addCut hcut, (t.passes_solve s').2.nrColumns_eq, List.length_append, hlength,
      List.length_singleton]

theorem session_visitNode (c : CanonicalForm α) (state : SearchState α) (node : SearchNode α)
    (rest : List (SearchNode α)) (outcome : Outcome (List α)) :
    ∃ event, (c.visitNode state node rest outcome).session =
      (node.tableau.solve state.session).session.record event (node.tableau.solve state.session).tableau :=
  ⟨_, c.session_advance ..⟩

theorem tolerance_of_searches (h : c.Searches s state) : state.session.tolerance = s.tolerance := by
  induction h with
  | start => exact Session.tolerance_record ..
  | @next state node rest outcome _ _ _ ih =>
    obtain ⟨event, hsession⟩ := c.session_visitNode state node rest outcome
    rw [hsession, Session.tolerance_record, (node.tableau.passes_solve state.session).1.tolerance_eq, ih]

/-- A waiting node was there before, or it bounds a variable in the tableau of the visited node. -/
theorem mem_queue_visitNode {child : SearchNode α} (h : child ∈ (c.visitNode state node rest outcome).queue) :
    child ∈ rest ∨ ∃ v x side, child.tableau = c.branch (node.tableau.solve state.session).tableau v x side := by
  simp only [visitNode, advance] at h
  split at h
  · exact .inl h
  · next v x _ =>
    rcases List.mem_append.mp h with hrest | hchild
    · exact .inl hrest
    · simp only [childNodes, List.mem_cons, List.not_mem_nil, or_false] at hchild
      rcases hchild with rfl | rfl
      · exact .inr ⟨v, x, .upper, rfl⟩
      · exact .inr ⟨v, x, .lower, rfl⟩
  · exact .inl h

theorem grown_of_searches (hc : c.Grown c.tableau) (h : c.Searches s state) :
    ∀ node ∈ state.queue, c.Grown node.tableau := by
  induction h with
  | start =>
    intro node hnode
    rw [List.mem_singleton.mp hnode]
    exact hc
  | @next state node rest outcome _ hqueue _ ih =>
    rw [hqueue] at ih
    intro child hchild
    rcases mem_queue_visitNode hchild with hrest | ⟨v, x, side, htableau⟩
    · exact ih child (List.mem_cons_of_mem _ hrest)
    · rw [htableau]
      exact ((ih node List.mem_cons_self).solve state.session).branch v x side

theorem grown_of_occurs (hc : c.Grown c.tableau)
    (hderived : c.integerColumns = deriveIntegerColumns c.tableau c.placements c.integerVariables)
    (h : c.Occurs s t) : c.Grown t := by
  cases h with
  | solve hpasses => exact hc.passes hpasses
  | search hstate hnode hpasses => exact (grown_of_searches hc hstate _ hnode).passes hpasses
  | cut hround hpasses => exact (grown_of_cuts hc hderived hround).1.passes hpasses

/-! ### Recorded tableaus occur -/

theorem Cuts.recordsOnly_solve (h : c.Cuts s mask t s') : s'.RecordsOnly (c.Occurs s) (t.solve s').session := by
  refine (t.passes_solve s').1.mono fun u hu => .cut h ?_
  rwa [tolerance_of_cuts h] at hu

theorem recordsOnly_cutLoop (h : c.Cuts s mask t s') (remaining nrCuts : ℕ) :
    s'.RecordsOnly (c.Occurs s) (c.cutLoop remaining nrCuts mask t s').2 := by
  induction remaining using Nat.strong_induction_on generalizing nrCuts mask t s' with
  | _ remaining ih =>
    have hsolve := h.recordsOnly_solve
    obtain ⟨hsession, -⟩ | ⟨n, cut, rfl, hcut, heq⟩ := c.cutLoop_cases remaining nrCuts mask t s'
    · rw [hsession]
      exact hsolve
    · have hnext := h.next hcut
      have hrecord := Session.RecordsOnly.record (P := c.Occurs s) (t.solve s').session (.cut cut.sourceRow)
        (.cut hnext .start)
      rw [heq]
      exact (hsolve.trans hrecord).trans (ih n (Nat.lt_succ_self n) hnext (nrCuts + 1))

theorem recordsOnly_initial (c : CanonicalForm α) (s : Session α) :
    s.RecordsOnly (c.Occurs s) (s.record .initial c.tableau) := .record s .initial (.solve .start)

theorem recordsOnly_cuttingPlane (c : CanonicalForm α) (s : Session α) :
    s.RecordsOnly (c.Occurs s) (c.cuttingPlane s).2 := by
  unfold cuttingPlane
  cases hcolumns : c.cutColumns with
  | error e => exact .refl s
  | ok columns => exact (c.recordsOnly_initial s).trans (recordsOnly_cutLoop (.start hcolumns) _ 0)

theorem recordsOnly_solve (c : CanonicalForm α) (s : Session α) : s.RecordsOnly (c.Occurs s) (c.solve s).2 := by
  have hsolve := (c.tableau.passes_solve (s.record .initial c.tableau)).1
  rw [Session.tolerance_record] at hsolve
  exact (c.recordsOnly_initial s).trans (hsolve.mono fun _ => .solve)

/-- A unit of fuel ends the search where it is, with a failed run or after a node, or it leads to the next state. -/
theorem searchLoop_session_cases (c : CanonicalForm α) (fuel : ℕ) (state : SearchState α) :
    (c.searchLoop (fuel + 1) state).2 = state.session ∨
    ∃ node rest, state.queue = node :: rest ∧
      ((c.searchLoop (fuel + 1) state).2 = (node.tableau.solve state.session).session ∨
        ∃ outcome, (node.tableau.solve state.session).result = .ok outcome ∧
          ((c.searchLoop (fuel + 1) state).2 = (c.visitNode state node rest outcome).session ∨
            c.searchLoop (fuel + 1) state = c.searchLoop fuel (c.visitNode state node rest outcome))) := by
  rw [searchLoop]
  split
  · exact .inl rfl
  · next node rest hqueue =>
    by_cases hlimit : state.session.settings.maxNodes.any (· ≤ state.nrNodes)
    · rw [if_pos hlimit]
      exact .inl rfl
    · rw [if_neg hlimit]
      refine .inr ⟨node, rest, hqueue, ?_⟩
      cases hresult : (node.tableau.solve state.session).result with
      | error e => exact .inl (by simp only [hresult])
      | ok outcome =>
        refine .inr ⟨outcome, rfl, ?_⟩
        simp only [hresult, visitNode]
        split
        · exact .inl (c.session_advance ..).symm
        · exact .inr rfl

theorem Searches.recordsOnly_solve (h : c.Searches s state) (hqueue : state.queue = node :: rest) :
    state.session.RecordsOnly (c.Occurs s) (node.tableau.solve state.session).session ∧
      c.Occurs s (node.tableau.solve state.session).tableau := by
  have hnode : node ∈ state.queue := hqueue ▸ List.mem_cons_self
  obtain ⟨hrecords, hpasses⟩ := node.tableau.passes_solve state.session
  rw [tolerance_of_searches h] at hrecords hpasses
  exact ⟨hrecords.mono fun _ => .search h hnode, .search h hnode hpasses⟩

theorem Searches.recordsOnly_visitNode (h : c.Searches s state) (hqueue : state.queue = node :: rest)
    (outcome : Outcome (List α)) :
    state.session.RecordsOnly (c.Occurs s) (c.visitNode state node rest outcome).session := by
  obtain ⟨hrecords, hoccurs⟩ := h.recordsOnly_solve hqueue
  obtain ⟨event, hsession⟩ := c.session_visitNode state node rest outcome
  rw [hsession]
  exact hrecords.trans (.record _ event hoccurs)

theorem recordsOnly_searchLoop (fuel : ℕ) (h : c.Searches s state) :
    state.session.RecordsOnly (c.Occurs s) (c.searchLoop fuel state).2 := by
  induction fuel generalizing state with
  | zero => exact .refl _
  | succ fuel ih =>
    obtain hend | ⟨node, rest, hqueue, hfails | ⟨outcome, hresult, hend | hgoes⟩⟩ :=
      c.searchLoop_session_cases fuel state
    · rw [hend]
      exact .refl _
    · rw [hfails]
      exact (h.recordsOnly_solve hqueue).1
    · rw [hend]
      exact h.recordsOnly_visitNode hqueue outcome
    · rw [hgoes]
      exact (h.recordsOnly_visitNode hqueue outcome).trans (ih (h.next hqueue hresult))

theorem recordsOnly_branchAndBoundWithin (c : CanonicalForm α) (unlimited : ℕ) (s : Session α) :
    s.RecordsOnly (c.Occurs s) (c.branchAndBoundWithin unlimited s).2 :=
  (c.recordsOnly_initial s).trans (recordsOnly_searchLoop _ .start)

theorem grown_tableau_ofModel (m : Model α) : (ofModel m).Grown (ofModel m).tableau := by
  refine ⟨(hasShape_tableau_ofModel m).wellFormed_ofMatrix ?_, le_rfl⟩
  exact List.nodup_range.map fun a b hab => Nat.add_left_cancel hab

end CanonicalForm

theorem Model.recordsOnly_solveWithin (m : Model α) (unlimited : ℕ) (s : Session α) :
    s.RecordsOnly ((CanonicalForm.ofModel m).Occurs s) (m.solveWithin unlimited s).2 := by
  unfold solveWithin
  split_ifs
  · exact (CanonicalForm.ofModel m).recordsOnly_solve s
  · exact (CanonicalForm.ofModel m).recordsOnly_branchAndBoundWithin unlimited s

/-- With any numbers and in any session, every tableau that occurs when a model is solved, searched or cut is well
formed, and every index that is used with it lies in it. A cut is derived with one mark for each column. All tableaus
on the trail are among those that occur. -/
theorem Model.inRange_of_occurs {direction : Direction} {cost : List α} {rows : List (List α)}
    {relations : List Relation} {rhs : List α} {domains : List VariableDomain} {m : Model α}
    (hm : Model.ofData direction cost rows relations rhs domains = .ok m) (s : Session α) :
    let c := CanonicalForm.ofModel m
    (∀ t, c.Occurs s t → c.InRange s.tolerance t) ∧
      (∀ mask t s', c.Cuts s mask t s' → mask.length = (t.solve s').tableau.nrColumns) ∧
      s.RecordsOnly (c.Occurs s) (c.solve s).2 ∧ s.RecordsOnly (c.Occurs s) (c.cuttingPlane s).2 ∧
      ∀ unlimited, s.RecordsOnly (c.Occurs s) (c.branchAndBoundWithin unlimited s).2 ∧
        s.RecordsOnly (c.Occurs s) (m.solveWithin unlimited s).2 := by
  intro c
  have hsized : c.Sized := CanonicalForm.sized_ofModel (length_domains_of_ofData hm)
  have hgrown : c.Grown c.tableau := CanonicalForm.grown_tableau_ofModel m
  refine ⟨fun t ht => ?_, fun mask t s' hround => ?_, c.recordsOnly_solve s, c.recordsOnly_cuttingPlane s,
    fun unlimited => ⟨c.recordsOnly_branchAndBoundWithin unlimited s, m.recordsOnly_solveWithin unlimited s⟩⟩
  · exact (CanonicalForm.grown_of_occurs hgrown rfl ht).inRange hsized s.tolerance
  · rw [(t.passes_solve s').2.nrColumns_eq]
    exact (CanonicalForm.grown_of_cuts hgrown rfl hround).2

-- The second round has a fifth column and a fifth mark.
theorem Model.inRange_of_occurs_cuttingModel :
    let c := CanonicalForm.ofModel cuttingModel
    Model.ofData .maximize [7, 9] [[-1, 3], [7, 1]] [.less, .less] [6, 35] [.integer, .integer] = .ok cuttingModel ∧
      ∃ t s', c.Cuts .exact [true, true, true, true, true] t s' ∧ c.InRange 0 t ∧
        (t.solve s').tableau.nrColumns = 5 := by
  intro c
  have hdata : Model.ofData .maximize [7, 9] [[-1, 3], [7, 1]] [.less, .less] [6, 35] [.integer, .integer] =
      .ok cuttingModel := by decide +kernel
  have hcolumns : c.cutColumns = .ok [true, true, true, true] := by decide +kernel
  have hcuts : ((c.tableau.solve (Session.exact.record .initial c.tableau)).tableau.cut? [true, true, true, true]
      (Session.exact.record .initial c.tableau).tolerance).isSome := by decide +kernel
  obtain ⟨cut, hcut⟩ := Option.isSome_iff_exists.mp hcuts
  have hround := (CanonicalForm.Cuts.start (s := .exact) hcolumns).next hcut
  obtain ⟨hinRange, hmask, -⟩ := Model.inRange_of_occurs hdata .exact
  exact ⟨hdata, _, _, hround, hinRange _ (.cut hround .start), (hmask _ _ _ hround).symm⟩

end LinearProgramming
