import LinearProgramming.Model.Basic
import LinearProgramming.RowMatrix.Basic
import LinearProgramming.Scalar.Tolerance

/-! # Knapsack problems and their relaxation

A knapsack problem maximises a value over selections of items whose weight stays within a capacity. Its linear
relaxation needs no tableau: taking the items by decreasing value per weight, and the first that does not fit
only in part, is optimal. -/

namespace LinearProgramming

structure Knapsack (α : Type) where
  values : List α
  weights : List α
  capacity : α
  deriving DecidableEq

inductive Density (α : Type) where
  | perUnit (ratio : α)
  | weightless
  deriving DecidableEq

/-- An item in the ranking by density, which counts from one. -/
structure RankedItem (α : Type) where
  item : Nat
  density : Density α
  rank : Nat
  deriving DecidableEq

/-- An item that was considered: the amount taken of it, and the capacity left after it. -/
structure FillRow (α : Type) where
  item : Nat
  amount : α
  remainder : α
  deriving DecidableEq

/-- What the relaxation of a node amounts to: the items fixed inside do not fit, every item is inside or outside, or
one is taken in part. -/
inductive Relaxation (α : Type) where
  | infeasible
  | integral (value : α)
  | fractional (value : α) (item : Nat)
  deriving DecidableEq

variable {α : Type} [Scalar α]

def Relaxation.value? : Relaxation α → Option α
  | infeasible => none
  | integral value => some value
  | fractional value _ => some value

/-- Whether one item is less dense than another. An item without weight is as dense as one whose ratio exceeds
all numbers. -/
def Density.isLess : Density α → Density α → Bool
  | perUnit a, perUnit b => a < b
  | perUnit a, weightless => Scalar.isFinite a
  | weightless, _ => false

def Density.ofItem (value weight : α) : Density α :=
  if weight == 0 then weightless else perUnit (value / weight)

namespace Knapsack

/-- Read a knapsack problem off a model: a maximisation over binary variables with one upper bound and no
negative data. The conditions are checked in this order. -/
def ofModel (m : Model α) : Except Error (Knapsack α) :=
  if m.direction ≠ .maximize then .error (.malformedModel "a knapsack problem is a maximization")
  else
    match m.constraints with
    | [⟨weights, .less, capacity⟩] =>
      if m.domains.any (· != .binary) then
        .error (.malformedModel "all variables of a knapsack problem are binary")
      else if (m.cost ++ weights).any fun v => v < 0 then
        .error (.malformedModel "a knapsack problem has nonnegative values and weights")
      else .ok ⟨m.cost, weights, capacity⟩
    | _ => .error (.malformedModel "a knapsack problem has a single <= constraint")

def nrItems (k : Knapsack α) : Nat := k.values.length

def valueOf (k : Knapsack α) (item : Nat) : α := k.values.getD item 0

def weightOf (k : Knapsack α) (item : Nat) : α := k.weights.getD item 0

/-- Insert an item into a list of decreasing density, behind the items that are as dense. -/
def insertByDensity (x : Density α × Nat) : List (Density α × Nat) → List (Density α × Nat)
  | [] => [x]
  | y :: rest => if y.1.isLess x.1 then x :: y :: rest else y :: insertByDensity x rest

/-- The items by decreasing density; items of equal density keep their order. -/
def ranking (k : Knapsack α) : List (RankedItem α) :=
  let items := (List.zipWith Density.ofItem k.values k.weights).zipIdx
  (items.foldl (fun sorted x => insertByDensity x sorted) []).mapIdx fun position (density, item) =>
    ⟨item, density, position + 1⟩

structure Filling (α : Type) where
  rows : List (FillRow α)
  remainder : α
  value : α

def Filling.take (k : Knapsack α) (f : Filling α) (item : Nat) (amount remainder : α) : Filling α :=
  ⟨f.rows ++ [⟨item, amount, remainder⟩], remainder, f.value + amount * k.valueOf item⟩

/-- Fill with the items that are fixed inside, in the order of the model. Items fixed outside are listed with
amount zero. -/
def fillFixed (k : Knapsack α) (fixed : List (Option Bool)) : Filling α :=
  fixed.zipIdx.foldl
    (fun f (choice, item) =>
      match choice with
      | none => f
      | some inside =>
        let amount : α := if inside then 1 else 0
        f.take k item amount (f.remainder - amount * k.weightOf item))
    ⟨[], k.capacity, 0⟩

/-- Go on filling with free items in the given order, up to the first that does not fit. -/
def fillFree (k : Knapsack α) (ε : α) : List Nat → Filling α → List (FillRow α) × Relaxation α
  | [], f => (f.rows, .integral f.value)
  | item :: rest, f =>
    let weight := k.weightOf item
    if weight ≤ f.remainder + ε then
      let remainder := f.remainder - weight
      k.fillFree ε rest ⟨f.rows ++ [⟨item, 1, remainder⟩], remainder, f.value + k.valueOf item⟩
    else
      let amount := f.remainder / weight
      let filled := f.take k item amount 0
      (filled.rows, if Scalar.isPositive amount ε then .fractional filled.value item else .integral filled.value)

def relax (k : Knapsack α) (ranking : List (RankedItem α)) (fixed : List (Option Bool)) (ε : α) :
    List (FillRow α) × Relaxation α :=
  let filled := k.fillFixed fixed
  if Scalar.isNegative filled.remainder ε then (filled.rows, .infeasible)
  else
    k.fillFree ε ((ranking.map (·.item)).filter fun item => (fixed.getD item none).isNone) filled

end Knapsack

end LinearProgramming
