import LinearProgramming.CanonicalForm.Edit
import LinearProgramming.Integer.Fractional
import LinearProgramming.Simplex.Solve

/-! # Branch and bound

A breadth first search over a tree of linear relaxations. A node holds the tableau of its parent with one more
row, which bounds an integer variable away from the fractional value it had there. Nodes are numbered in the
order in which they are created, which is also the order in which they are processed.

A search without a node limit need not end, so the loop takes fuel. With a node limit the fuel never runs out. -/

namespace LinearProgramming

/-- A node that waits to be processed. The root has number zero, and the depth is the number of branching rows on top
of its tableau. -/
structure SearchNode (α : Type) where
  id : Nat
  depth : Nat
  tableau : Tableau α
  deriving DecidableEq

/-- State of the search between two nodes. The next one is at the head of the queue. -/
structure SearchState (α : Type) where
  queue : List (SearchNode α)
  nextId : Nat
  nrNodes : Nat
  incumbent : Option (Solution α)
  session : Session α

/-- What a search found, and whether the node limit ended it while nodes were waiting. -/
structure SearchReport (α : Type) where
  outcome : Outcome (Solution α)
  nrNodes : Nat
  limitReached : Bool
  deriving DecidableEq

variable {α : Type} [Scalar α]

def SearchState.report (state : SearchState α) (limitReached : Bool) : SearchReport α :=
  ⟨match state.incumbent with
    | some best => .optimal best
    | none => .infeasible,
    state.nrNodes, limitReached⟩

def BoundSide.cutOff (side : BoundSide) (v : α) : α :=
  match side with
  | .upper => Scalar.floor v
  | .lower => Scalar.ceil v

namespace CanonicalForm

def resolveNode (c : CanonicalForm α) (incumbent : Option (Solution α)) (t : Tableau α)
    (outcome : Outcome (List α)) (ε : α) : NodeOutcome α :=
  match outcome with
  | .infeasible => .infeasible
  | .unbounded => .unbounded
  | .optimal _ =>
    let objective := c.objectiveValue t.objectiveValue
    if incumbent.any fun best => !c.direction.isBetter objective best.objectiveValue ε then .dominated
    else
      match c.firstFractional? t c.searchVariables ε with
      | none => .integral objective
      | some (variableIndex, v) => .branched variableIndex v

/-- A tableau with the row that keeps a variable on one side of a value. -/
def branch (c : CanonicalForm α) (t : Tableau α) (variableIndex : Nat) (v : α) (side : BoundSide) :
    Tableau α :=
  t.addConstraint (c.canonicalCoefficients (RowMatrix.unitVector c.nrVariables variableIndex))
    side.relation (side.cutOff v)

/-- The two children of a branched node, the one below the value first. -/
def childNodes (c : CanonicalForm α) (nextId depth : Nat) (t : Tableau α) (variableIndex : Nat) (v : α) :
    List (SearchNode α) :=
  [⟨nextId, depth + 1, c.branch t variableIndex v .upper⟩,
   ⟨nextId + 1, depth + 1, c.branch t variableIndex v .lower⟩]

def advance (c : CanonicalForm α) (state : SearchState α) (node : SearchNode α) (rest : List (SearchNode α))
    (t : Tableau α) (resolved : NodeOutcome α) (session : Session α) : SearchState α :=
  let next := { state with queue := rest, nrNodes := state.nrNodes + 1, session }
  match resolved with
  | .integral _ =>
    { next with
      incumbent := some ((c.solution t t.basicSolution).snap c.searchVariables session.tolerance) }
  | .branched variableIndex v =>
    { next with
      queue := rest ++ c.childNodes state.nextId node.depth t variableIndex v
      nextId := state.nextId + 2 }
  | _ => next

/-- Process waiting nodes in order. The search ends when none is left, when the node limit is reached, when the
root turns out to be unbounded or when a simplex run fails. -/
def searchLoop (c : CanonicalForm α) : Nat → SearchState α → Except Error (SearchReport α) × Session α
  | 0, state => (.error .outOfFuel, state.session)
  | fuel + 1, state =>
    match state.queue with
    | [] => (.ok (state.report false), state.session)
    | node :: rest =>
      if state.session.settings.maxNodes.any (· ≤ state.nrNodes) then
        (.ok (state.report true), state.session)
      else
        let run := node.tableau.solve state.session
        match run.result with
        | .error e => (.error e, run.session)
        | .ok outcome =>
          let resolved := c.resolveNode state.incumbent run.tableau outcome run.session.tolerance
          let session := run.session.record (.node node.id node.depth resolved) run.tableau
          match resolved, node.id with
          | .unbounded, 0 => (.ok ⟨.unbounded, state.nrNodes + 1, false⟩, session)
          | _, _ => c.searchLoop fuel (c.advance state node rest run.tableau resolved session)

/-- Fuel for a search: one unit per allowed node and one to notice the end, or the given amount when the number
of nodes is not limited. -/
def searchFuel (maxNodes : Option Nat) (unlimited : Nat) : Nat :=
  match maxNodes with
  | some n => n + 1
  | none => unlimited

/-- Search for the best integer solution. `unlimited` is the fuel of a search without a node limit. -/
def branchAndBoundWithin (unlimited : Nat) (c : CanonicalForm α) (s : Session α) :
    Except Error (SearchReport α) × Session α :=
  c.searchLoop (searchFuel s.settings.maxNodes unlimited)
    ⟨[⟨0, 0, c.tableau⟩], 1, 0, none, s.record .initial c.tableau⟩

/-- More nodes than any machine can process. -/
def ampleFuel : Nat := 18446744073709551616

def branchAndBound (c : CanonicalForm α) (s : Session α) : Except Error (SearchReport α) × Session α :=
  c.branchAndBoundWithin ampleFuel s

end CanonicalForm

/-- Solve a model with its integer variables: by the simplex methods if there are none, else by a search with
the given fuel. A search that the node limit ends gives the best solution found so far. -/
def Model.solveWithin (unlimited : Nat) (m : Model α) (s : Session α) :
    Except Error (Outcome (Solution α)) × Session α :=
  if m.integerVariables.isEmpty then m.solveRelaxation s
  else
    let searched := (CanonicalForm.ofModel m).branchAndBoundWithin unlimited s
    (searched.1.map (·.outcome), searched.2)

def Model.solve (m : Model α) (s : Session α) : Except Error (Outcome (Solution α)) × Session α :=
  m.solveWithin CanonicalForm.ampleFuel s

end LinearProgramming
