import LinearProgramming.Proofs.Integer.Subproblem

/-! # Correctness of branch and bound

`CanonicalForm.Reaches` describes the states between two nodes of a search. In all of them the invariant
`SearchState.Sound` holds: the waiting nodes are subproblems of the model, the incumbent is integer feasible, and every
integer feasible assignment that improves on it is held by a waiting node. Only the root can be unbounded, since the
children of a node are bounded by its optimum. The report of a search that ends in such a state is correct
(`SearchReport.Correct`), whatever the fuel. -/

namespace LinearProgramming

open CanonicalForm

/-! ### Variables of a search -/

namespace CanonicalForm

variable {c : CanonicalForm ℚ} {m : Model ℚ} {t u : Tableau ℚ} {y : List ℚ}

theorem mem_searchVariables (h : c.Represents m) (hm : m.Valid) (hints : c.integerVariables = m.integerVariables)
    {v : ℕ} : v ∈ c.searchVariables ↔ v < m.nrVariables ∧ (m.integerVariables = [] ∨ v ∈ m.integerVariables) := by
  rw [searchVariables, hints]
  split_ifs with hempty
  · rw [List.isEmpty_iff] at hempty
    rw [nrVariables, h.length_placements, List.mem_range]
    simp [hempty]
  · rw [List.isEmpty_iff] at hempty
    constructor
    · intro hv
      refine ⟨?_, Or.inr hv⟩
      rw [← hm.length_domains]
      exact List.mem_range.mp (List.mem_filter.mp hv).1
    · rintro ⟨-, hnil | hv⟩
      · exact absurd hnil hempty
      · exact hv

/-! ### Resolving a node -/

/-- How a solved node is resolved, case by case. -/
inductive Resolves (c : CanonicalForm ℚ) (incumbent : Option (Solution ℚ)) (u : Tableau ℚ) :
    Outcome (List ℚ) → NodeOutcome ℚ → Prop
  | infeasible : Resolves c incumbent u .infeasible .infeasible
  | unbounded : Resolves c incumbent u .unbounded .unbounded
  | dominated {values : List ℚ} {best : Solution ℚ} (hbest : incumbent = some best)
      (hnot : ¬c.direction.isBetter (c.objectiveValue u.objectiveValue) best.objectiveValue 0) :
      Resolves c incumbent u (.optimal values) .dominated
  | integral {values : List ℚ} (himproves : ∀ best, incumbent = some best →
        c.direction.isBetter (c.objectiveValue u.objectiveValue) best.objectiveValue 0)
      (hnone : c.firstFractional? u c.searchVariables 0 = none) :
      Resolves c incumbent u (.optimal values) (.integral (c.objectiveValue u.objectiveValue))
  | branched {values : List ℚ} {v : ℕ} {a : ℚ} (himproves : ∀ best, incumbent = some best →
        c.direction.isBetter (c.objectiveValue u.objectiveValue) best.objectiveValue 0)
      (hsome : c.firstFractional? u c.searchVariables 0 = some (v, a)) :
      Resolves c incumbent u (.optimal values) (.branched v a)

theorem resolves_resolveNode (c : CanonicalForm ℚ) (incumbent : Option (Solution ℚ)) (u : Tableau ℚ)
    (outcome : Outcome (List ℚ)) : c.Resolves incumbent u outcome (c.resolveNode incumbent u outcome 0) := by
  cases outcome with
  | infeasible => exact .infeasible
  | unbounded => exact .unbounded
  | optimal values =>
    simp only [resolveNode]
    split_ifs with hdom
    · rw [Option.any_eq_true] at hdom
      obtain ⟨best, hbest, hnot⟩ := hdom
      exact .dominated hbest (by simpa using hnot)
    · have himproves : ∀ best, incumbent = some best →
          c.direction.isBetter (c.objectiveValue u.objectiveValue) best.objectiveValue 0 = true := by
        intro best hbest
        simpa [hbest] using hdom
      split
      · exact .integral himproves ‹_›
      · exact .branched himproves ‹_›

end CanonicalForm

/-! ### States of a search -/

namespace SearchState

def run (state : SearchState ℚ) (node : SearchNode ℚ) : Run ℚ := node.tableau.solve state.session

/-- The node is next in the queue, the limit leaves room for it, and it is solved with this outcome. -/
structure Takes (state : SearchState ℚ) (node : SearchNode ℚ) (rest : List (SearchNode ℚ))
    (outcome : Outcome (List ℚ)) : Prop where
  queue_eq : state.queue = node :: rest
  below_limit : ¬state.session.settings.maxNodes.any (· ≤ state.nrNodes)
  result_eq : (state.run node).result = .ok outcome

end SearchState

namespace CanonicalForm

variable {c : CanonicalForm ℚ} {m : Model ℚ} {state : SearchState ℚ} {node : SearchNode ℚ}
  {rest : List (SearchNode ℚ)} {outcome : Outcome (List ℚ)}

def resolution (c : CanonicalForm ℚ) (state : SearchState ℚ) (node : SearchNode ℚ) (outcome : Outcome (List ℚ)) :
    NodeOutcome ℚ :=
  c.resolveNode state.incumbent (state.run node).tableau outcome (state.run node).session.tolerance

def successor (c : CanonicalForm ℚ) (state : SearchState ℚ) (node : SearchNode ℚ) (rest : List (SearchNode ℚ))
    (outcome : Outcome (List ℚ)) : SearchState ℚ :=
  c.advance state node rest (state.run node).tableau (c.resolution state node outcome)
    ((state.run node).session.record (.node node.id node.depth (c.resolution state node outcome))
      (state.run node).tableau)

theorem mem_childNodes {id depth v : ℕ} {t : Tableau ℚ} {a : ℚ} {child : SearchNode ℚ}
    (hchild : child ∈ c.childNodes id depth t v a) : ∃ side, child.tableau = c.branch t v a side ∧ id ≤ child.id := by
  simp only [childNodes, List.mem_cons, List.not_mem_nil, or_false] at hchild
  rcases hchild with rfl | rfl
  · exact ⟨.upper, rfl, le_rfl⟩
  · exact ⟨.lower, rfl, Nat.le_succ id⟩

theorem exists_childNode (c : CanonicalForm ℚ) (id depth : ℕ) (t : Tableau ℚ) (v : ℕ) (a : ℚ) (side : BoundSide) :
    ∃ child ∈ c.childNodes id depth t v a, child.tableau = c.branch t v a side := by
  cases side with
  | upper => exact ⟨_, List.mem_cons_self .., rfl⟩
  | lower => exact ⟨_, List.mem_cons_of_mem _ (List.mem_singleton_self _), rfl⟩

/-- The states between two nodes of a search that was started with a session. -/
inductive Reaches (c : CanonicalForm ℚ) (s : Session ℚ) : SearchState ℚ → Prop
  | start : c.Reaches s ⟨[⟨0, 0, c.tableau⟩], 1, 0, none, s.record .initial c.tableau⟩
  | next {state : SearchState ℚ} {node : SearchNode ℚ} {rest : List (SearchNode ℚ)} {outcome : Outcome (List ℚ)}
      (hstate : c.Reaches s state) (htakes : state.Takes node rest outcome)
      (hgoes : ¬(c.resolution state node outcome = .unbounded ∧ node.id = 0)) :
      c.Reaches s (c.successor state node rest outcome)

/-- A unit of fuel ends the search or leads to the next state. -/
theorem searchLoop_cases (c : CanonicalForm ℚ) (fuel : ℕ) (state : SearchState ℚ) :
    (state.queue = [] ∧ (c.searchLoop (fuel + 1) state).1 = .ok (state.report false)) ∨
    (state.queue ≠ [] ∧ (c.searchLoop (fuel + 1) state).1 = .ok (state.report true)) ∨
    (∃ node ∈ state.queue, ∃ e, (state.run node).result = .error e ∧ (c.searchLoop (fuel + 1) state).1 = .error e) ∨
    ∃ node rest outcome, state.Takes node rest outcome ∧
      ((c.resolution state node outcome = .unbounded ∧ node.id = 0 ∧
          (c.searchLoop (fuel + 1) state).1 = .ok ⟨.unbounded, state.nrNodes + 1, false⟩) ∨
        (¬(c.resolution state node outcome = .unbounded ∧ node.id = 0) ∧
          c.searchLoop (fuel + 1) state = c.searchLoop fuel (c.successor state node rest outcome))) := by
  rw [searchLoop]
  split
  · next hqueue => exact Or.inl ⟨hqueue, rfl⟩
  · next node rest hqueue =>
    by_cases hlimit : state.session.settings.maxNodes.any (· ≤ state.nrNodes)
    · rw [if_pos hlimit]
      exact Or.inr (Or.inl ⟨by rw [hqueue]; exact List.cons_ne_nil _ _, rfl⟩)
    · rw [if_neg hlimit]
      cases hresult : (node.tableau.solve state.session).result with
      | error e =>
        simp only [hresult]
        exact Or.inr (Or.inr (Or.inl ⟨node, by rw [hqueue]; exact List.mem_cons_self .., e, hresult, rfl⟩))
      | ok outcome =>
        refine Or.inr (Or.inr (Or.inr ⟨node, rest, outcome, ⟨hqueue, hlimit, hresult⟩, ?_⟩))
        simp only [hresult]
        by_cases hroot : c.resolution state node outcome = .unbounded ∧ node.id = 0
        · left
          refine ⟨hroot.1, hroot.2, ?_⟩
          have hres := hroot.1
          rw [resolution, SearchState.run] at hres
          rw [hres, hroot.2]
          rfl
        · right
          refine ⟨hroot, ?_⟩
          split
          · next hres hid => exact absurd ⟨hres, hid⟩ hroot
          · rfl

end CanonicalForm

/-! ### The invariant -/

/-- The assignment is better than the incumbent, if there is one. -/
def Model.Improves (m : Model ℚ) (incumbent : Option (Solution ℚ)) (y : List ℚ) : Prop :=
  ∀ best, incumbent = some best → m.direction.isBetter (m.objectiveValue y) best.objectiveValue 0

namespace SearchState

variable {c : CanonicalForm ℚ} {m : Model ℚ} {state : SearchState ℚ} {node : SearchNode ℚ}
  {rest : List (SearchNode ℚ)} {session : Session ℚ} {n : ℕ}

/-- What holds between two nodes of a search. -/
structure Sound (c : CanonicalForm ℚ) (m : Model ℚ) (state : SearchState ℚ) : Prop where
  tolerance_eq : state.session.tolerance = 0
  nextId_pos : 0 < state.nextId
  subproblem : ∀ node ∈ state.queue, c.Subproblem m node.tableau
  root : ∀ node ∈ state.queue, node.id = 0 → node.tableau = c.tableau
  bounded : ∀ node ∈ state.queue, node.id ≠ 0 →
    ∃ bound, ∀ x, node.tableau.Feasible x → node.tableau.objectiveAt x ≤ bound
  incumbent : ∀ best, state.incumbent = some best →
    m.IntegerFeasible best.values ∧ best.objectiveValue = m.objectiveValue best.values
  covers : ∀ y, m.IntegerFeasible y → m.Improves state.incumbent y →
    ∃ node ∈ state.queue, c.Holds node.tableau y

theorem sound_start (h : c.Represents m) (hm : m.Valid) (hs : session.tolerance = 0) :
    Sound c m ⟨[⟨0, 0, c.tableau⟩], 1, 0, none, session⟩ where
  tolerance_eq := hs
  nextId_pos := Nat.one_pos
  subproblem node hnode := by
    rw [List.mem_singleton.mp hnode]
    exact h.subproblem hm
  root node hnode _ := by rw [List.mem_singleton.mp hnode]
  bounded node hnode hid := by
    rw [List.mem_singleton.mp hnode] at hid
    exact absurd rfl hid
  incumbent best hbest := by cases hbest
  covers y hy _ := ⟨_, List.mem_singleton_self _, h.exists_feasible hm hy.1⟩

namespace Sound

/-- Bounded nodes replace the next node. What the node holds of the improvements that are still asked for, they hold
as well. -/
theorem replace (hsound : Sound c m state) (hqueue : state.queue = node :: rest) {children : List (SearchNode ℚ)}
    {nextId : ℕ} {incumbent : Option (Solution ℚ)} (hnext : 0 < nextId)
    (hsub : ∀ child ∈ children, c.Subproblem m child.tableau) (hid : ∀ child ∈ children, child.id ≠ 0)
    (hbounded : ∀ child ∈ children, ∃ bound, ∀ x, child.tableau.Feasible x → child.tableau.objectiveAt x ≤ bound)
    (hincumbent : ∀ best, incumbent = some best →
      m.IntegerFeasible best.values ∧ best.objectiveValue = m.objectiveValue best.values)
    (himproves : ∀ y, m.Improves incumbent y → m.Improves state.incumbent y)
    (hcovers : ∀ y, m.IntegerFeasible y → m.Improves incumbent y → c.Holds node.tableau y →
      ∃ child ∈ children, c.Holds child.tableau y)
    (hs : session.tolerance = 0) : Sound c m ⟨rest ++ children, nextId, n, incumbent, session⟩ := by
  have hmem : ∀ other ∈ rest, other ∈ state.queue := by
    intro other hother
    rw [hqueue]
    exact List.mem_cons_of_mem node hother
  refine ⟨hs, hnext, fun o ho => ?_, fun o ho hzero => ?_, fun o ho hne => ?_, hincumbent, fun y hy himp => ?_⟩
  · rcases List.mem_append.mp ho with ho | ho
    · exact hsound.subproblem o (hmem o ho)
    · exact hsub o ho
  · rcases List.mem_append.mp ho with ho | ho
    · exact hsound.root o (hmem o ho) hzero
    · exact absurd hzero (hid o ho)
  · rcases List.mem_append.mp ho with ho | ho
    · exact hsound.bounded o (hmem o ho) hne
    · exact hbounded o ho
  · obtain ⟨other, hother, hholds⟩ := hsound.covers y hy (himproves y himp)
    rw [hqueue] at hother
    rcases List.mem_cons.mp hother with rfl | hother
    · obtain ⟨child, hchild, hholds⟩ := hcovers y hy himp hholds
      exact ⟨child, List.mem_append_right rest hchild, hholds⟩
    · exact ⟨other, List.mem_append_left children hother, hholds⟩

/-- A node that holds no improvement can be dropped. -/
theorem drop (hsound : Sound c m state) (hqueue : state.queue = node :: rest)
    (hnode : ∀ y, m.IntegerFeasible y → m.Improves state.incumbent y → ¬c.Holds node.tableau y)
    (hs : session.tolerance = 0) : Sound c m ⟨rest, state.nextId, n, state.incumbent, session⟩ := by
  rw [← List.append_nil rest]
  exact hsound.replace hqueue hsound.nextId_pos (by simp) (by simp) (by simp) hsound.incumbent (fun _ hy => hy)
    (fun y hy himproves hholds => absurd hholds (hnode y hy himproves)) hs

/-- A better incumbent that is the best of its node replaces node and incumbent. -/
theorem accept (hsound : Sound c m state) (hqueue : state.queue = node :: rest) {best : Solution ℚ}
    (hbest : m.IntegerFeasible best.values ∧ best.objectiveValue = m.objectiveValue best.values)
    (himproves : m.Improves state.incumbent best.values)
    (hnode : ∀ y, c.Holds node.tableau y → ¬m.direction.isBetter (m.objectiveValue y) best.objectiveValue 0)
    (hs : session.tolerance = 0) : Sound c m ⟨rest, state.nextId, n, some best, session⟩ := by
  have hincumbent : ∀ b, some best = some b →
      m.IntegerFeasible b.values ∧ b.objectiveValue = m.objectiveValue b.values := by
    intro b hb
    obtain rfl := Option.some.inj hb
    exact hbest
  have hold : ∀ y, m.Improves (some best) y → m.Improves state.incumbent y := by
    intro y hbetter old hold
    have h1 := himproves old hold
    have h2 := hbetter best rfl
    rw [Direction.isBetter_iff] at h1 h2 ⊢
    rw [hbest.2] at h2
    exact h1.trans h2
  rw [← List.append_nil rest]
  exact hsound.replace hqueue hsound.nextId_pos (by simp) (by simp) (by simp) hincumbent hold
    (fun y _ hbetter hholds => absurd (hbetter best rfl) (hnode y hholds)) hs

/-! ### One node -/

section Node

variable {outcome : Outcome (List ℚ)} (hsound : Sound c m state) (htakes : state.Takes node rest outcome)
include hsound htakes

theorem startsAt_run : (state.run node).StartsAt node.tableau state.session :=
  Tableau.startsAt_solve (hsound.subproblem node (htakes.queue_eq ▸ List.mem_cons_self ..)).atBasis
    hsound.tolerance_eq

theorem tolerance_run : (state.run node).session.tolerance = 0 := by
  rw [Session.tolerance, (hsound.startsAt_run htakes).settings_eq]
  exact hsound.tolerance_eq

theorem solveEnd_run : (state.run node).tableau.SolveEnd outcome :=
  Tableau.solveEnd_solve (hsound.subproblem node (htakes.queue_eq ▸ List.mem_cons_self ..)).atBasis
    hsound.tolerance_eq htakes.result_eq

theorem subproblem_run : c.Subproblem m (state.run node).tableau :=
  (hsound.subproblem node (htakes.queue_eq ▸ List.mem_cons_self ..)).rewrites (hsound.startsAt_run htakes).rewrites

theorem holds_run_iff (y : List ℚ) : c.Holds (state.run node).tableau y ↔ c.Holds node.tableau y :=
  holds_iff (hsound.startsAt_run htakes).rewrites.equivalent

theorem resolves_resolution :
    c.Resolves state.incumbent (state.run node).tableau outcome (c.resolution state node outcome) := by
  rw [resolution, hsound.tolerance_run htakes]
  exact c.resolves_resolveNode _ _ _

/-- Only the root can be resolved as unbounded. -/
theorem id_eq_zero_of_unbounded (hres : c.resolution state node outcome = .unbounded) : node.id = 0 := by
  have hmem : node ∈ state.queue := htakes.queue_eq ▸ List.mem_cons_self ..
  have hcase := hsound.resolves_resolution htakes
  rw [hres] at hcase
  cases hcase with
  | unbounded =>
    by_contra hid
    obtain ⟨bound, hbound⟩ := hsound.bounded node hmem hid
    obtain ⟨x, hx, hgt⟩ := Tableau.verdict_solve (hsound.subproblem node hmem).atBasis hsound.tolerance_eq
      htakes.result_eq bound
    exact absurd (hbound x hx) (not_le.mpr hgt)

/-- An unbounded root shows that the relaxation is unbounded. -/
theorem verdict_unbounded (h : c.Represents m) (hm : m.Valid) (hres : c.resolution state node outcome = .unbounded) :
    m.Verdict .unbounded := by
  have hroot := hsound.root node (htakes.queue_eq ▸ List.mem_cons_self ..) (hsound.id_eq_zero_of_unbounded htakes hres)
  have hcase := hsound.resolves_resolution htakes
  rw [hres] at hcase
  cases hcase with
  | unbounded =>
    have hrew := (hsound.startsAt_run htakes).rewrites
    rw [hroot] at hrew
    exact h.verdict_solution hm hrew (hsound.solveEnd_run htakes)

/-- The children of a solved node hold all its integer feasible assignments, and its optimum bounds them. -/
theorem branch (h : c.Represents m) (hm : m.Valid) (hints : c.integerVariables = m.integerVariables) {v : ℕ} {a : ℚ}
    (hcost : ∀ j < (state.run node).tableau.nrColumns, 0 ≤ (state.run node).tableau.relativeCost j)
    (hsome : c.firstFractional? (state.run node).tableau c.searchVariables 0 = some (v, a))
    (hs : session.tolerance = 0) :
    Sound c m ⟨rest ++ c.childNodes state.nextId node.depth (state.run node).tableau v a, state.nextId + 2, n,
      state.incumbent, session⟩ := by
  have hsub := hsound.subproblem_run htakes
  obtain ⟨hv, hmarked⟩ := (mem_searchVariables h hm hints).mp (mem_of_firstFractional?_eq_some hsome)
  refine hsound.replace htakes.queue_eq (Nat.succ_pos _) (fun child hchild => ?_) (fun child hchild => ?_)
    (fun child hchild => ?_) hsound.incumbent (fun _ hy => hy) (fun y hy _ hheld => ?_) hs
  · obtain ⟨side, htab, -⟩ := mem_childNodes hchild
    rw [htab]
    exact hsub.branch v a side
  · obtain ⟨side, -, hid⟩ := mem_childNodes hchild
    have := hsound.nextId_pos
    omega
  · obtain ⟨side, htab, -⟩ := mem_childNodes hchild
    refine ⟨(state.run node).tableau.objectiveValue, fun x hx => ?_⟩
    rw [htab] at hx ⊢
    obtain ⟨hx', hobj⟩ := hsub.feasible_of_branch hx
    rw [hobj]
    exact Tableau.objectiveAt_le_of_cost_nonneg hcost hx'
  · obtain ⟨z, hz⟩ := hy.2 v hv hmarked
    have hside : ∃ side, Keeps side a (y.getD v 0) := by
      rw [hz]
      rcases keeps_or_keeps a z with hkeeps | hkeeps
      · exact ⟨_, hkeeps⟩
      · exact ⟨_, hkeeps⟩
    obtain ⟨side, hkeeps⟩ := hside
    obtain ⟨child, hchild, htab⟩ := exists_childNode c state.nextId node.depth (state.run node).tableau v a side
    refine ⟨child, hchild, ?_⟩
    rw [htab, hsub.holds_branch h hv]
    exact ⟨(hsound.holds_run_iff htakes y).mpr hheld, hkeeps⟩

theorem next (h : c.Represents m) (hm : m.Valid) (hints : c.integerVariables = m.integerVariables)
    (hgoes : ¬(c.resolution state node outcome = .unbounded ∧ node.id = 0)) :
    Sound c m (c.successor state node rest outcome) := by
  have hend := hsound.solveEnd_run htakes
  have hsub := hsound.subproblem_run htakes
  have hholds := hsound.holds_run_iff htakes
  have hcase := hsound.resolves_resolution htakes
  have hrun := hsound.tolerance_run htakes
  have hs : ∀ event, ((state.run node).session.record event (state.run node).tableau).tolerance = 0 :=
    fun event => by rw [Session.tolerance_record, hrun]
  rw [successor]
  generalize hresolved : c.resolution state node outcome = resolved at hcase ⊢
  cases hcase with
  | infeasible =>
    obtain ⟨i, hi, hrhs, hentry⟩ := hend
    refine hsound.drop htakes.queue_eq (fun y _ _ => ?_) (hs _)
    rw [← hholds]
    exact not_holds_of_row hi hrhs hentry
  | unbounded => exact absurd ⟨hresolved, hsound.id_eq_zero_of_unbounded htakes hresolved⟩ hgoes
  | @dominated _ best hbest hnot =>
    obtain ⟨-, -, hcost⟩ := hend
    refine hsound.drop htakes.queue_eq (fun y _ himproves hheld => ?_) (hs _)
    have hbetter := himproves best hbest
    have hle := hsub.not_isBetter h hcost ((hholds y).mpr hheld)
    rw [h.direction_eq] at hnot
    rw [Direction.isBetter_iff] at hbetter hle hnot
    exact hnot (hbetter.trans_le (not_lt.mp hle))
  | integral himproves hnone =>
    obtain ⟨-, hrhs, hcost⟩ := hend
    obtain ⟨hfeas, hobj⟩ := hsub.feasible_solution h hrhs
    simp only [advance]
    rw [hs, snap_eq]
    refine hsound.accept htakes.queue_eq ⟨⟨hfeas, fun v hv hmarked => ?_⟩, hobj⟩ (fun old hold => ?_)
      (fun y hheld => hsub.not_isBetter h hcost ((hholds y).mpr hheld)) (hs _)
    · exact h.exists_int_of_firstFractional?_eq_none hsub.atBasis.wellFormed hnone
        ((mem_searchVariables h hm hints).mpr ⟨hv, hmarked⟩) (h.length_placements.symm ▸ hv)
    · rw [← hobj, ← h.direction_eq]
      exact himproves old hold
  | branched himproves hsome => exact hsound.branch htakes h hm hints hend.2.2 hsome (hs _)

end Node

end Sound

end SearchState

/-! ### Whole searches -/

/-- What a report says about the model. That an optimum cannot be improved, and that there is no solution, is said only
of a search that was completed. -/
structure SearchReport.Correct (m : Model ℚ) (report : SearchReport ℚ) : Prop where
  optimal : ∀ best, report.outcome = .optimal best →
    m.IntegerFeasible best.values ∧ best.objectiveValue = m.objectiveValue best.values
  not_isBetter : report.limitReached = false → ∀ best, report.outcome = .optimal best →
    ∀ y, m.IntegerFeasible y → ¬m.direction.isBetter (m.objectiveValue y) best.objectiveValue 0
  infeasible : report.limitReached = false → report.outcome = .infeasible → ∀ y, ¬m.IntegerFeasible y
  unbounded : report.outcome = .unbounded → m.Verdict .unbounded

namespace SearchState.Sound

variable {c : CanonicalForm ℚ} {m : Model ℚ} {state : SearchState ℚ}

/-- Without a waiting node there is no improvement on the incumbent. -/
theorem correct_report (hsound : Sound c m state) {limitReached : Bool}
    (hqueue : limitReached = false → state.queue = []) : (state.report limitReached).Correct m := by
  have hnone : limitReached = false → ∀ y, m.IntegerFeasible y → ¬m.Improves state.incumbent y := by
    intro hlimit y hy himproves
    obtain ⟨node, hnode, -⟩ := hsound.covers y hy himproves
    rw [hqueue hlimit] at hnode
    exact absurd hnode List.not_mem_nil
  unfold report
  cases hincumbent : state.incumbent with
  | none =>
    refine ⟨by simp, by simp, fun hlimit _ y hy => hnone hlimit y hy ?_, by simp⟩
    intro best hbest
    rw [hincumbent] at hbest
    cases hbest
  | some found =>
    refine ⟨fun best hbest => ?_, fun hlimit best hbest y hy hbetter => ?_, by simp, by simp⟩
    · obtain rfl := Outcome.optimal.inj hbest
      exact hsound.incumbent found hincumbent
    · obtain rfl := Outcome.optimal.inj hbest
      refine hnone hlimit y hy fun old hold => ?_
      rw [hincumbent] at hold
      obtain rfl := Option.some.inj hold
      exact hbetter

end SearchState.Sound

namespace CanonicalForm

variable {c : CanonicalForm ℚ} {m : Model ℚ} {s : Session ℚ} {state : SearchState ℚ} (h : c.Represents m)
  (hm : m.Valid) (hints : c.integerVariables = m.integerVariables)
include h hm hints

theorem sound_of_reaches (hs : s.tolerance = 0) (hreaches : c.Reaches s state) : state.Sound c m := by
  induction hreaches with
  | start => exact SearchState.sound_start h hm (by rw [Session.tolerance_record, hs])
  | next _ htakes hgoes ih => exact ih.next htakes h hm hints hgoes

theorem correct_searchLoop (hs : s.tolerance = 0) {fuel : ℕ} (hreaches : c.Reaches s state) {report : SearchReport ℚ}
    (hok : (c.searchLoop fuel state).1 = .ok report) : report.Correct m := by
  induction fuel generalizing state with
  | zero => cases hok
  | succ fuel ih =>
    have hsound := sound_of_reaches h hm hints hs hreaches
    obtain ⟨hqueue, heq⟩ | ⟨-, heq⟩ | ⟨node, -, e, -, heq⟩ | ⟨node, rest, outcome, htakes, hcase⟩ :=
      searchLoop_cases c fuel state
    · rw [heq] at hok
      obtain rfl := Except.ok.inj hok
      exact hsound.correct_report fun _ => hqueue
    · rw [heq] at hok
      obtain rfl := Except.ok.inj hok
      exact hsound.correct_report fun hfalse => Bool.noConfusion hfalse
    · rw [heq] at hok
      cases hok
    · obtain ⟨hres, -, heq⟩ | ⟨hgoes, heq⟩ := hcase
      · rw [heq] at hok
        obtain rfl := Except.ok.inj hok
        exact ⟨by simp, by simp, by simp, fun _ => hsound.verdict_unbounded htakes h hm hres⟩
      · rw [heq] at hok
        exact ih (hreaches.next htakes hgoes) hok

end CanonicalForm

/-- Branch and bound in exact arithmetic, with any settings and any fuel. An optimum that is reported is integer
feasible and has the objective value that is given, even if the node limit ended the search. If the limit did not end
it, there is no better one, and none at all if the model is reported as infeasible. The relaxation of a model that is
reported as unbounded is unbounded. No node but the root is ever resolved as unbounded, so none is dropped for it. -/
theorem Model.correct_branchAndBound {direction : Direction} {cost : List ℚ} {rows : List (List ℚ)}
    {relations : List Relation} {rhs : List ℚ} {domains : List VariableDomain} {m : Model ℚ}
    (hm : Model.ofData direction cost rows relations rhs domains = .ok m) (s : Session ℚ)
    (hs : s.settings.tolerances.general = 0) :
    (∀ unlimited report, ((ofModel m).branchAndBoundWithin unlimited s).1 = .ok report → report.Correct m) ∧
    ∀ state node rest outcome, (ofModel m).Reaches s state → state.Takes node rest outcome →
      (ofModel m).resolution state node outcome = .unbounded → node.id = 0 := by
  have hvalid := valid_of_ofData hm
  have hrep := represents_ofModel hvalid
  refine ⟨fun unlimited report hok => ?_, fun state node rest outcome hreaches htakes hres => ?_⟩
  · exact correct_searchLoop hrep hvalid rfl hs .start hok
  · exact (sound_of_reaches hrep hvalid rfl hs hreaches).id_eq_zero_of_unbounded htakes hres

/-- A model whose relaxation has a fractional optimum. -/
def branchingModel : Model ℚ where
  direction := .maximize
  cost := [5, 4]
  domains := [.integer, .integer]
  constraints := [⟨[6, 4], .less, 24⟩, ⟨[1, 2], .less, 6⟩]

theorem Model.correct_branchAndBound_branchingModel :
    Model.ofData .maximize [5, 4] [[6, 4], [1, 2]] [.less, .less] [24, 6] [.integer, .integer] = .ok branchingModel ∧
    ∃ report, ((ofModel branchingModel).branchAndBoundWithin 0 .exact).1 = .ok report ∧
      report.outcome.map (·.values) = .optimal [4, 0] ∧ report.nrNodes = 5 ∧ report.limitReached = false ∧
      report.Correct branchingModel := by
  have hdata : Model.ofData .maximize [5, 4] [[6, 4], [1, 2]] [.less, .less] [24, 6] [.integer, .integer] =
      .ok branchingModel := by decide +kernel
  have hreport : ((ofModel branchingModel).branchAndBoundWithin 0 .exact).1.map
      (fun report => (report.outcome.map (·.values), report.nrNodes, report.limitReached)) =
        .ok (.optimal [4, 0], 5, false) := by decide +kernel
  refine ⟨hdata, ?_⟩
  cases hres : ((ofModel branchingModel).branchAndBoundWithin 0 .exact).1 with
  | error e => simp [hres, Except.map] at hreport
  | ok report =>
    simp only [hres, Except.map, Except.ok.injEq, Prod.mk.injEq] at hreport
    exact ⟨report, rfl, hreport.1, hreport.2.1, hreport.2.2,
      (correct_branchAndBound hdata .exact rfl).1 0 report hres⟩

end LinearProgramming
