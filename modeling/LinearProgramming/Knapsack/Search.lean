import LinearProgramming.Knapsack.Relaxation
import LinearProgramming.Settings
import LinearProgramming.Solution

/-! # Knapsack search

Branch and bound over items fixed inside or outside the knapsack, first in, first out. A node branches on the
item that its relaxation takes in part. -/

namespace LinearProgramming

/-- A processed node with its relaxation. The rows are those of the fixed items, then of the free ones by rank until
the knapsack is full. -/
structure KnapsackIteration (α : Type) where
  node : Nat
  fixed : List (Nat × Bool)
  rows : List (FillRow α)
  objectiveValue : Option α
  deriving DecidableEq

/-- The best selection, with value one for an item inside and zero for an item outside. -/
structure Selection (α : Type) where
  objectiveValue : α
  values : List α
  deriving DecidableEq

/-- What the knapsack search found, and whether the iteration limit ended it while nodes were waiting. -/
structure KnapsackReport (α : Type) where
  outcome : Outcome (Selection α)
  ranking : List (RankedItem α)
  iterations : Array (KnapsackIteration α)
  limitReached : Bool
  deriving DecidableEq

variable {α : Type} [Scalar α]

namespace Knapsack

/-- State of the search between two nodes. A waiting node tells of each item whether it is fixed, and then whether
inside. -/
structure State (α : Type) where
  queue : List (List (Option Bool))
  iterations : Array (KnapsackIteration α)
  incumbent : Option (Selection α)

def fixedItems (fixed : List (Option Bool)) : List (Nat × Bool) :=
  fixed.zipIdx.filterMap fun (choice, item) => choice.map (item, ·)

/-- The selection described by the rows of a relaxation, items that are not listed being outside. -/
def selection (k : Knapsack α) (rows : List (FillRow α)) (value : α) : Selection α :=
  ⟨value, rows.foldl (fun values row => values.set row.item (Scalar.round row.amount))
    (List.replicate k.nrItems 0)⟩

def improves (incumbent : Option (Selection α)) (value ε : α) : Bool :=
  match incumbent with
  | none => true
  | some best => Scalar.isPositive (value - best.objectiveValue) ε

/-- The state after the node `fixed` has been processed, `rest` being the other waiting nodes. -/
def visit (k : Knapsack α) (ranking : List (RankedItem α)) (ε : α) (state : State α)
    (fixed : List (Option Bool)) (rest : List (List (Option Bool))) : State α :=
  let (rows, relaxation) := k.relax ranking fixed ε
  let next : State α :=
    { state with
      queue := rest
      iterations := state.iterations.push
        ⟨state.iterations.size, fixedItems fixed, rows, relaxation.value?⟩ }
  match relaxation with
  | .infeasible => next
  | .integral value =>
    if improves state.incumbent value ε then { next with incumbent := some (k.selection rows value) } else next
  | .fractional value item =>
    if improves state.incumbent value ε then
      { next with queue := rest ++ [fixed.set item (some false), fixed.set item (some true)] }
    else next

/-- Process at most `remaining` waiting nodes; also tells whether some are left. -/
def searchLoop (k : Knapsack α) (ranking : List (RankedItem α)) (ε : α) (remaining : Nat) (state : State α) :
    State α × Bool :=
  match state.queue with
  | [] => (state, false)
  | fixed :: rest =>
    match remaining with
    | 0 => (state, true)
    | remaining + 1 => k.searchLoop ranking ε remaining (k.visit ranking ε state fixed rest)

def search (k : Knapsack α) (ε : α) (maxIterations : Nat) : KnapsackReport α :=
  let ranking := k.ranking
  let (final, limitReached) :=
    k.searchLoop ranking ε maxIterations ⟨[List.replicate k.nrItems none], #[], none⟩
  ⟨match final.incumbent with
    | some best => .optimal best
    | none => .infeasible,
    ranking, final.iterations, limitReached⟩

end Knapsack

def Model.solveKnapsack (m : Model α) (settings : Settings α) : Except Error (KnapsackReport α) :=
  (Knapsack.ofModel m).map (·.search settings.tolerances.knapsack settings.maxKnapsackIterations)

end LinearProgramming
