import Mathlib.Data.Nat.Basic
import LinearProgramming.Integer.BranchAndBound
import LinearProgramming.Proofs.Scalar.Exact
import LinearProgramming.Proofs.Simplex.Trail

/-! # The trail of a search

Branch and bound works through a queue, and the trail shows all of it. A `Visit` is what the trail tells of one
processed node: the pivots that solved it and the record of how it was resolved. `SearchTree` describes the nodes of
the search from these visits alone: the root, and two children for each branched node, numbered in the order in which
they are created. The visited nodes come first in this order and the waiting ones after them, which `Explored` keeps
through every node (`Explored.visit`). Nothing is assumed about the arithmetic, so all of this also holds in floating
point. -/

namespace LinearProgramming

variable {α : Type}

/-! ### Visits -/

def NodeOutcome.isBranched : NodeOutcome α → Bool
  | .branched _ _ => true
  | _ => false

/-- A processed node: as it was taken from the queue, the pivots that solved it, its last tableau and how it was
resolved. -/
structure Visit (α : Type) where
  node : SearchNode α
  pivots : List (Record α)
  solved : Tableau α
  outcome : NodeOutcome α

/-- What the trail shows of a visit. -/
def Visit.records (v : Visit α) : List (Record α) :=
  v.pivots ++ [⟨.node v.node.id v.node.depth v.outcome, v.solved⟩]

def Visit.branched (visits : List (Visit α)) : List (Visit α) := visits.filter (·.outcome.isBranched)

/-- Number, depth and branching of a branched node, if the step is its record. -/
def Record.branching? (r : Record α) : Option (ℕ × ℕ × ℕ × α) :=
  match r.event with
  | .node id depth (.branched variableIndex a) => some (id, depth, variableIndex, a)
  | _ => none

theorem Visit.of_getElem?_branched {visits : List (Visit α)} {v : Visit α} {j : ℕ}
    (h : (Visit.branched visits)[j]? = some v) : v ∈ visits ∧ ∃ variableIndex a, v.outcome = .branched variableIndex a := by
  obtain ⟨hv, hbranched⟩ := List.mem_filter.mp (List.mem_of_getElem? h)
  refine ⟨hv, ?_⟩
  cases houtcome : v.outcome with
  | branched variableIndex a => exact ⟨variableIndex, a, rfl⟩
  | _ => simp [houtcome, NodeOutcome.isBranched] at hbranched

theorem Visit.mem_filterMap_branching? {visits : List (Visit α)} {v : Visit α} {variableIndex : ℕ} {a : α}
    (hv : v ∈ visits) (houtcome : v.outcome = .branched variableIndex a) :
    (v.node.id, v.node.depth, variableIndex, a) ∈ (visits.flatMap Visit.records).filterMap Record.branching? := by
  refine List.mem_filterMap.mpr ⟨⟨.node v.node.id v.node.depth v.outcome, v.solved⟩, ?_, by rw [houtcome]; rfl⟩
  exact List.mem_flatMap.mpr ⟨v, hv, List.mem_append_right _ (List.mem_singleton_self _)⟩

variable [Scalar α]

/-- The pivots lead from the tableau of the node to the one that the node was resolved by. -/
def Visit.Replays (v : Visit α) : Prop := SolvePath v.node.tableau v.pivots v.solved

def Visit.children (c : CanonicalForm α) (nextId : ℕ) (v : Visit α) : List (SearchNode α) :=
  match v.outcome with
  | .branched variableIndex a => c.childNodes nextId v.node.depth v.solved variableIndex a
  | _ => []

theorem CanonicalForm.depth_of_mem_childNodes {c : CanonicalForm α} {nextId depth variableIndex : ℕ} {t : Tableau α}
    {a : α} {child : SearchNode α} (hchild : child ∈ c.childNodes nextId depth t variableIndex a) :
    child.depth = depth + 1 := by
  simp only [CanonicalForm.childNodes, List.mem_cons, List.not_mem_nil, or_false] at hchild
  rcases hchild with rfl | rfl <;> rfl

theorem Visit.depth_of_mem_children {c : CanonicalForm α} {nextId : ℕ} {v : Visit α} {child : SearchNode α}
    (hchild : child ∈ v.children c nextId) : child.depth = v.node.depth + 1 := by
  unfold Visit.children at hchild
  split at hchild
  · exact CanonicalForm.depth_of_mem_childNodes hchild
  · cases hchild

/-! ### The tree -/

/-- The nodes of a search, in the order in which they are created, seen from the visits made so far. Branched nodes are
counted from zero, so the children of branched node `j` are nodes `2 * j + 1` and `2 * j + 2`. They start at its solved
tableau with one more row, which keeps the variable at or below its value rounded down, or at or above it rounded up. -/
structure SearchTree (c : CanonicalForm α) (visits : List (Visit α)) (nodes : List (SearchNode α)) : Prop where
  root : nodes[0]? = some ⟨0, 0, c.tableau⟩
  length_eq : nodes.length = 2 * (Visit.branched visits).length + 1
  id_eq : ∀ i (node : SearchNode α), nodes[i]? = some node → node.id = i
  depth_le : nodes.Pairwise (·.depth ≤ ·.depth)
  children : ∀ j v variableIndex a, (Visit.branched visits)[j]? = some v → v.outcome = .branched variableIndex a →
    nodes[2 * j + 1]? = some ⟨2 * j + 1, v.node.depth + 1,
      v.solved.addConstraint (c.canonicalCoefficients (RowMatrix.unitVector c.nrVariables variableIndex)) .less
        (Scalar.floor a)⟩ ∧
    nodes[2 * j + 2]? = some ⟨2 * j + 2, v.node.depth + 1,
      v.solved.addConstraint (c.canonicalCoefficients (RowMatrix.unitVector c.nrVariables variableIndex)) .greater
        (Scalar.ceil a)⟩

namespace SearchTree

variable {c : CanonicalForm α} {visits : List (Visit α)} {nodes : List (SearchNode α)} {v : Visit α}

theorem start (c : CanonicalForm α) : SearchTree c [] [⟨0, 0, c.tableau⟩] where
  root := rfl
  length_eq := rfl
  id_eq i node hnode := by
    cases i with
    | zero =>
      obtain rfl := Option.some.inj hnode
      rfl
    | succ i => simp at hnode
  depth_le := List.pairwise_singleton _ _
  children j v variableIndex a hj := by simp [Visit.branched] at hj

theorem visit_of_not_branched (h : SearchTree c visits nodes) (hv : v.outcome.isBranched = false) :
    SearchTree c (visits ++ [v]) nodes := by
  have hbranched : Visit.branched (visits ++ [v]) = Visit.branched visits := by
    simp [Visit.branched, hv]
  exact ⟨h.root, by rw [hbranched, h.length_eq], h.id_eq, h.depth_le, by rw [hbranched]; exact h.children⟩

theorem visit_of_branched (h : SearchTree c visits nodes) {variableIndex : ℕ} {a : α}
    (hv : v.outcome = .branched variableIndex a) (hdepth : ∀ node ∈ nodes, node.depth ≤ v.node.depth + 1) :
    SearchTree c (visits ++ [v]) (nodes ++ c.childNodes nodes.length v.node.depth v.solved variableIndex a) := by
  have hbranched : Visit.branched (visits ++ [v]) = Visit.branched visits ++ [v] := by
    simp [Visit.branched, NodeOutcome.isBranched, hv]
  have hold : ∀ {i : ℕ} {node : SearchNode α} (children : List (SearchNode α)), nodes[i]? = some node →
      (nodes ++ children)[i]? = some node := by
    intro i node children hnode
    rw [List.getElem?_append_left (List.getElem?_eq_some_iff.mp hnode).1, hnode]
  refine ⟨hold _ h.root, ?_, fun i node hnode => ?_, ?_, fun j w index b hj hw => ?_⟩
  · rw [hbranched, List.length_append, List.length_append, h.length_eq]
    simp [CanonicalForm.childNodes]
    omega
  · rcases Nat.lt_or_ge i nodes.length with hlt | hge
    · rw [List.getElem?_append_left hlt] at hnode
      exact h.id_eq i node hnode
    · rw [List.getElem?_append_right hge] at hnode
      obtain ⟨k, rfl⟩ := Nat.exists_eq_add_of_le hge
      rw [Nat.add_sub_cancel_left] at hnode
      match k with
      | 0 | 1 =>
        obtain rfl := Option.some.inj hnode
        rfl
      | k + 2 => simp [CanonicalForm.childNodes] at hnode
  · rw [List.pairwise_append]
    refine ⟨h.depth_le, by simp [CanonicalForm.childNodes], fun node hnode child hchild => ?_⟩
    rw [CanonicalForm.depth_of_mem_childNodes hchild]
    exact hdepth node hnode
  · rw [hbranched] at hj
    rcases Nat.lt_trichotomy j (Visit.branched visits).length with hlt | heq | hgt
    · rw [List.getElem?_append_left hlt] at hj
      obtain ⟨hupper, hlower⟩ := h.children j w index b hj hw
      exact ⟨hold _ hupper, hold _ hlower⟩
    · subst heq
      have hvw : v = w := by simpa using hj
      subst hvw
      obtain ⟨rfl, rfl⟩ := NodeOutcome.branched.inj (hv.symm.trans hw)
      rw [← h.length_eq]
      have hnext : 2 * (Visit.branched visits).length + 2 = nodes.length + 1 := by rw [h.length_eq]
      rw [hnext, List.getElem?_append_right le_rfl, List.getElem?_append_right (Nat.le_succ _)]
      simp [CanonicalForm.childNodes, CanonicalForm.branch, BoundSide.relation, BoundSide.cutOff]
    · have hout : (Visit.branched visits ++ [v])[j]? = none := by
        rw [List.getElem?_eq_none_iff, List.length_append, List.length_singleton]
        omega
      rw [hout] at hj
      cases hj

theorem visit (h : SearchTree c visits nodes) (hdepth : ∀ node ∈ nodes, node.depth ≤ v.node.depth + 1) :
    SearchTree c (visits ++ [v]) (nodes ++ v.children c nodes.length) := by
  unfold Visit.children
  split
  · next variableIndex a hv => exact h.visit_of_branched hv hdepth
  · next hv =>
    rw [List.append_nil]
    refine h.visit_of_not_branched ?_
    cases houtcome : v.outcome with
    | branched variableIndex a => exact absurd houtcome (hv variableIndex a)
    | _ => rfl

end SearchTree

/-! ### States of a search -/

theorem CanonicalForm.queue_advance (c : CanonicalForm α) (state : SearchState α) (rest : List (SearchNode α))
    (v : Visit α) (session : Session α) :
    (c.advance state v.node rest v.solved v.outcome session).queue = rest ++ v.children c state.nextId := by
  unfold CanonicalForm.advance Visit.children
  cases v.outcome <;> simp

theorem CanonicalForm.nextId_advance (c : CanonicalForm α) (state : SearchState α) (rest : List (SearchNode α))
    (v : Visit α) (session : Session α) :
    (c.advance state v.node rest v.solved v.outcome session).nextId =
      state.nextId + (v.children c state.nextId).length := by
  unfold CanonicalForm.advance Visit.children
  cases v.outcome <;> rfl

theorem CanonicalForm.nrNodes_advance (c : CanonicalForm α) (state : SearchState α) (node : SearchNode α)
    (rest : List (SearchNode α)) (t : Tableau α) (resolved : NodeOutcome α) (session : Session α) :
    (c.advance state node rest t resolved session).nrNodes = state.nrNodes + 1 := by
  unfold CanonicalForm.advance
  cases resolved <;> rfl

theorem CanonicalForm.session_advance (c : CanonicalForm α) (state : SearchState α) (node : SearchNode α)
    (rest : List (SearchNode α)) (t : Tableau α) (resolved : NodeOutcome α) (session : Session α) :
    (c.advance state node rest t resolved session).session = session := by
  unfold CanonicalForm.advance
  cases resolved <;> rfl

namespace SearchState

variable {c : CanonicalForm α} {s session : Session α} {visits : List (Visit α)} {state : SearchState α} {v : Visit α}
  {rest : List (SearchNode α)}

/-- The state of a search between two nodes, after the given visits. -/
structure Explored (c : CanonicalForm α) (s : Session α) (visits : List (Visit α)) (state : SearchState α) :
    Prop where
  tree : SearchTree c visits (visits.map (·.node) ++ state.queue)
  shallow : ∀ first rest, state.queue = first :: rest →
    ∀ node ∈ visits.map (·.node) ++ state.queue, node.depth ≤ first.depth + 1
  replays : ∀ v ∈ visits, v.Replays
  extends_session : s.Extends (⟨.initial, c.tableau⟩ :: visits.flatMap Visit.records) state.session
  nrNodes_eq : state.nrNodes = visits.length
  nextId_eq : state.nextId = (visits.map (·.node) ++ state.queue).length
  nrNodes_le : ∀ limit, s.settings.maxNodes = some limit → state.nrNodes ≤ limit

theorem explored_start (c : CanonicalForm α) (s : Session α) :
    Explored c s [] ⟨[⟨0, 0, c.tableau⟩], 1, 0, none, s.record .initial c.tableau⟩ where
  tree := SearchTree.start c
  shallow first rest hqueue node hnode := by
    obtain ⟨rfl, -⟩ := List.cons.inj hqueue
    rw [List.map_nil, List.nil_append, List.mem_singleton] at hnode
    rw [hnode]
    exact Nat.le_succ _
  replays v hv := by cases hv
  extends_session := Session.Extends.record s _ _
  nrNodes_eq := rfl
  nextId_eq := rfl
  nrNodes_le limit _ := Nat.zero_le limit

/-- The next node is visited: its children go to the end of the queue. -/
theorem Explored.visit (h : Explored c s visits state) (hqueue : state.queue = v.node :: rest)
    (hreplays : v.Replays) (hsession : state.session.Extends v.records session)
    (hlimit : ¬state.session.settings.maxNodes.any (· ≤ state.nrNodes)) :
    Explored c s (visits ++ [v]) (c.advance state v.node rest v.solved v.outcome session) := by
  have hnodes : (visits ++ [v]).map (·.node) ++ (c.advance state v.node rest v.solved v.outcome session).queue =
      visits.map (·.node) ++ state.queue ++ v.children c (visits.map (·.node) ++ state.queue).length := by
    rw [c.queue_advance, hqueue, ← hqueue, h.nextId_eq]
    simp [hqueue]
  have hdepth := h.shallow _ _ hqueue
  refine ⟨?_, fun first others hfirst node hnode => ?_, ?_, ?_, ?_, ?_, fun limit hmax => ?_⟩
  · rw [hnodes]
    exact h.tree.visit hdepth
  · rw [hnodes] at hnode
    -- the next node was behind the visited one in the queue or is one of its children
    have hle : v.node.depth ≤ first.depth := by
      have hmem : first ∈ rest ++ v.children c state.nextId := by
        rw [← c.queue_advance state rest v session, hfirst]
        exact List.mem_cons_self ..
      rcases List.mem_append.mp hmem with hmem | hmem
      · have hpairwise := h.tree.depth_le
        rw [hqueue, List.pairwise_append, List.pairwise_cons] at hpairwise
        exact hpairwise.2.1.1 first hmem
      · rw [Visit.depth_of_mem_children hmem]
        exact Nat.le_succ _
    rcases List.mem_append.mp hnode with hnode | hnode
    · exact Nat.le_trans (hdepth node hnode) (Nat.succ_le_succ hle)
    · rw [Visit.depth_of_mem_children hnode]
      exact Nat.succ_le_succ hle
  · intro w hw
    rcases List.mem_append.mp hw with hw | hw
    · exact h.replays w hw
    · rw [List.mem_singleton.mp hw]
      exact hreplays
  · rw [c.session_advance, List.flatMap_append, List.flatMap_singleton]
    exact h.extends_session.trans hsession
  · rw [c.nrNodes_advance, h.nrNodes_eq, List.length_append, List.length_singleton]
  · rw [c.nextId_advance, hnodes, List.length_append, h.nextId_eq]
  · rw [h.extends_session.settings_eq, hmax, Option.any_some, decide_eq_true_iff] at hlimit
    rw [c.nrNodes_advance]
    exact Nat.lt_of_not_le hlimit

end SearchState

/-! ### Whole searches -/

/-- What the visits of a search, and the nodes that wait at its end, say about its report and its session. -/
structure SearchReport.Shows (c : CanonicalForm α) (s : Session α) (visits : List (Visit α))
    (waiting : List (SearchNode α)) (report : SearchReport α) (session : Session α) : Prop where
  tree : SearchTree c visits (visits.map (·.node) ++ waiting)
  replays : ∀ v ∈ visits, v.Replays
  extends_session : s.Extends (⟨.initial, c.tableau⟩ :: visits.flatMap Visit.records) session
  nrNodes_eq : report.nrNodes = visits.length
  waiting_eq : report.limitReached = false → waiting = []
  limit_eq : report.limitReached = true → s.settings.maxNodes = some report.nrNodes ∧ waiting ≠ []

namespace CanonicalForm

variable {c : CanonicalForm α} {s : Session α} {visits : List (Visit α)} {state : SearchState α}
  {report : SearchReport α}

/-- A unit of fuel ends the search or visits the next node. -/
theorem searchLoop_visits (c : CanonicalForm α) (fuel : ℕ) (state : SearchState α) :
    (state.queue = [] ∧ c.searchLoop (fuel + 1) state = (.ok (state.report false), state.session)) ∨
    (state.queue ≠ [] ∧ state.session.settings.maxNodes.any (· ≤ state.nrNodes) ∧
      c.searchLoop (fuel + 1) state = (.ok (state.report true), state.session)) ∨
    (∃ e, (c.searchLoop (fuel + 1) state).1 = .error e) ∨
    ∃ (v : Visit α) (rest : List (SearchNode α)) (session : Session α), state.queue = v.node :: rest ∧
      ¬state.session.settings.maxNodes.any (· ≤ state.nrNodes) ∧ v.Replays ∧
      state.session.Extends v.records session ∧
      ((v.outcome = .unbounded ∧ v.node.id = 0 ∧
          c.searchLoop (fuel + 1) state = (.ok ⟨.unbounded, state.nrNodes + 1, false⟩, session)) ∨
        c.searchLoop (fuel + 1) state =
          c.searchLoop fuel (c.advance state v.node rest v.solved v.outcome session)) := by
  rw [searchLoop]
  split
  · next hqueue => exact Or.inl ⟨hqueue, rfl⟩
  · next node rest hqueue =>
    by_cases hlimit : state.session.settings.maxNodes.any (· ≤ state.nrNodes)
    · rw [if_pos hlimit]
      exact Or.inr (Or.inl ⟨by rw [hqueue]; exact List.cons_ne_nil _ _, hlimit, rfl⟩)
    · rw [if_neg hlimit]
      cases hresult : (node.tableau.solve state.session).result with
      | error e =>
        simp only [hresult]
        exact Or.inr (Or.inr (Or.inl ⟨e, rfl⟩))
      | ok outcome =>
        simp only [hresult]
        obtain ⟨pivots, hpath, hpivots⟩ := node.tableau.exists_path_solve state.session
        generalize node.tableau.solve state.session = run at hpath hpivots ⊢
        generalize c.resolveNode state.incumbent run.tableau outcome run.session.tolerance = resolved
        refine Or.inr (Or.inr (Or.inr ⟨⟨node, pivots, run.tableau, resolved⟩, rest, _, hqueue, hlimit, hpath,
          hpivots.trans (.record run.session _ _), ?_⟩))
        split
        · next hid => exact Or.inl ⟨rfl, hid, rfl⟩
        · exact Or.inr rfl

theorem shows_searchLoop (fuel : ℕ) (h : state.Explored c s visits) (hok : (c.searchLoop fuel state).1 = .ok report) :
    ∃ visits waiting, report.Shows c s visits waiting (c.searchLoop fuel state).2 := by
  induction fuel generalizing state visits with
  | zero => cases hok
  | succ fuel ih =>
    obtain ⟨hqueue, heq⟩ | ⟨hqueue, hlimit, heq⟩ | ⟨e, heq⟩ |
      ⟨v, rest, session, hqueue, hlimit, hreplays, hadds, hcase⟩ := searchLoop_visits c fuel state
    · rw [heq] at hok ⊢
      obtain rfl := Except.ok.inj hok
      have htree := h.tree
      rw [hqueue] at htree
      exact ⟨visits, [], htree, h.replays, h.extends_session, h.nrNodes_eq, fun _ => rfl, (nomatch ·)⟩
    · rw [heq] at hok ⊢
      obtain rfl := Except.ok.inj hok
      refine ⟨visits, state.queue, h.tree, h.replays, h.extends_session, h.nrNodes_eq, (nomatch ·),
        fun _ => ⟨?_, hqueue⟩⟩
      rw [h.extends_session.settings_eq, Option.any_eq_true] at hlimit
      obtain ⟨limit, hmax, hreached⟩ := hlimit
      rw [hmax, Nat.le_antisymm (of_decide_eq_true hreached) (h.nrNodes_le limit hmax)]
      rfl
    · rw [heq] at hok
      cases hok
    · have hnext := h.visit hqueue hreplays hadds hlimit
      obtain ⟨hunbounded, hid, heq⟩ | heq := hcase
      · rw [heq] at hok ⊢
        obtain rfl := Except.ok.inj hok
        -- the root is the only node there is
        have hvisits : visits = [] := by
          have hfirst := h.tree.id_eq visits.length v.node (by simp [hqueue])
          exact List.eq_nil_of_length_eq_zero (hfirst.symm.trans hid)
        subst hvisits
        have hrest : rest = [] := by
          have hlength := h.tree.length_eq
          rw [hqueue] at hlength
          exact List.eq_nil_of_length_eq_zero (Nat.succ.inj hlength)
        have htree := hnext.tree
        rw [c.queue_advance, hrest, Visit.children, hunbounded] at htree
        refine ⟨[v], [], htree, hnext.replays, ?_, ?_, fun _ => rfl, (nomatch ·)⟩
        · have hextends := hnext.extends_session
          rw [c.session_advance] at hextends
          exact hextends
        · rw [h.nrNodes_eq]
          rfl
      · rw [heq] at hok ⊢
        exact ih hnext hok

/-- A recorded search, with any scalars and any fuel, that gives a report. Its trail continues with the initial tableau
and then, visit by visit, with the pivots from the tableau of a node to the one that its record shows. The visited nodes
are the first of the tree that the branched ones span, in the order of their numbers. A search that was not stopped has
visited the whole tree. One that was stopped has visited as many nodes as the limit allows and leaves some out. -/
theorem trail_branchAndBound (c : CanonicalForm α) (s : Session α) (hrecord : s.settings.recordIterations = true)
    (unlimited : ℕ) (hok : (c.branchAndBoundWithin unlimited s).1 = .ok report) :
    ∃ visits waiting,
      (c.branchAndBoundWithin unlimited s).2.trail.toList =
        s.trail.toList ++ ⟨.initial, c.tableau⟩ :: visits.flatMap Visit.records ∧
      (∀ v ∈ visits, v.Replays) ∧
      SearchTree c visits (visits.map (·.node) ++ waiting) ∧
      report.nrNodes = visits.length ∧
      (report.limitReached = false → report.nrNodes = 2 * (Visit.branched visits).length + 1) ∧
      (report.limitReached = true →
        s.settings.maxNodes = some report.nrNodes ∧ report.nrNodes < 2 * (Visit.branched visits).length + 1) := by
  obtain ⟨visits, waiting, h⟩ := shows_searchLoop _ (SearchState.explored_start c s) hok
  have hlength : report.nrNodes + waiting.length = 2 * (Visit.branched visits).length + 1 := by
    rw [← h.tree.length_eq, h.nrNodes_eq, List.length_append, List.length_map]
  refine ⟨visits, waiting, h.extends_session.trail_eq hrecord, h.replays, h.tree, h.nrNodes_eq, fun hfalse => ?_,
    fun htrue => ?_⟩
  · rw [← hlength, h.waiting_eq hfalse, List.length_nil, Nat.add_zero]
  · obtain ⟨hlimit, hwaiting⟩ := h.limit_eq htrue
    refine ⟨hlimit, ?_⟩
    rw [← hlength]
    exact Nat.lt_add_of_pos_right (List.length_pos_iff.mpr hwaiting)

end CanonicalForm

/-- A model that is branched once. -/
def roundingModel : Model ℚ where
  direction := .maximize
  cost := [1]
  domains := [.integer]
  constraints := [⟨[2], .less, 3⟩]

/-- A session without tolerances that records each step and limits the number of nodes. -/
def Session.limited (maxNodes : ℕ) : Session ℚ :=
  start { (Settings.standard : Settings ℚ) with
    tolerances := ⟨0, 0, 0⟩, maxNodes := some maxNodes, recordIterations := true }

-- The root is branched at `3 / 2`, its first child is integral, and the second one is left waiting.
theorem CanonicalForm.trail_branchAndBound_roundingModel :
    ∃ report, ((ofModel roundingModel).branchAndBoundWithin 0 (.limited 2)).1 = .ok report ∧
      report.nrNodes = 2 ∧ report.limitReached = true ∧
      ∃ visits, ((ofModel roundingModel).branchAndBoundWithin 0 (.limited 2)).2.trail.toList =
          ⟨.initial, (ofModel roundingModel).tableau⟩ :: visits.flatMap Visit.records ∧
        visits.length = 2 ∧ 2 < 2 * (Visit.branched visits).length + 1 ∧
        ∃ v ∈ visits, v.node.id = 0 ∧ v.outcome = .branched 0 (3 / 2) ∧
          (visits.map (·.node))[1]? = some ⟨1, 1,
            v.solved.addConstraint ((ofModel roundingModel).canonicalCoefficients [1]) .less 1⟩ := by
  have hreport : ((ofModel roundingModel).branchAndBoundWithin 0 (.limited 2)).1.map
      (fun report => (report.nrNodes, report.limitReached)) = .ok (2, true) := by decide +kernel
  have hbranching : ((ofModel roundingModel).branchAndBoundWithin 0 (.limited 2)).2.trail.toList.filterMap
      Record.branching? = [(0, 0, 0, 3 / 2)] := by decide +kernel
  have hfloor : Scalar.floor (3 / 2 : ℚ) = 1 := by decide +kernel
  cases hres : ((ofModel roundingModel).branchAndBoundWithin 0 (.limited 2)).1 with
  | error e => simp [hres, Except.map] at hreport
  | ok report =>
    simp only [hres, Except.map, Except.ok.injEq, Prod.mk.injEq] at hreport
    obtain ⟨visits, waiting, htrail, -, htree, hnodes, -, hlimit⟩ :=
      trail_branchAndBound (ofModel roundingModel) (.limited 2) rfl 0 hres
    have hless := (hlimit hreport.2).2
    rw [hreport.1] at hnodes hless
    refine ⟨report, rfl, hreport.1, hreport.2, visits, htrail, hnodes.symm, hless, ?_⟩
    have hpos : 0 < (Visit.branched visits).length := by omega
    have hfirst := List.getElem?_eq_getElem hpos
    obtain ⟨hmem, variableIndex, a, houtcome⟩ := Visit.of_getElem?_branched hfirst
    have hbranched : (visits.flatMap Visit.records).filterMap Record.branching? = [(0, 0, 0, 3 / 2)] := by
      rw [htrail] at hbranching
      exact hbranching
    have hshown := Visit.mem_filterMap_branching? hmem houtcome
    simp only [hbranched, List.mem_singleton, Prod.mk.injEq] at hshown
    obtain ⟨hid, hdepth, rfl, rfl⟩ := hshown
    have hchild := (htree.children 0 _ 0 (3 / 2) hfirst houtcome).1
    rw [hdepth, hfloor, List.getElem?_append_left (by rw [List.length_map, ← hnodes]; decide)] at hchild
    exact ⟨_, hmem, hid, houtcome, hchild⟩

end LinearProgramming
