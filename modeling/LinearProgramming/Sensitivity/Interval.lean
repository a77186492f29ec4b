import LinearProgramming.Scalar.Tolerance

/-! # Conditions on a change

Every question of how far a value of the model may change leads to linear inequalities in the change `Δ`. Their
solutions form an interval. -/

namespace LinearProgramming

/-- The inequality `constant + coefficient * Δ ≥ 0`. -/
structure Condition (α : Type) where
  constant : α
  coefficient : α
  deriving DecidableEq

/-- The changes between two bounds, a missing bound being infinite. -/
structure Interval (α : Type) where
  lower : Option α
  upper : Option α
  deriving DecidableEq

variable {α : Type} [Scalar α]

namespace Interval

def unrestricted : Interval α := ⟨none, none⟩

def tighter (choose : α → α → α) : Option α → Option α → Option α
  | some a, some b => some (choose a b)
  | some a, none => some a
  | none, b => b

def intersect (s t : Interval α) : Interval α :=
  ⟨tighter Scalar.maximum s.lower t.lower, tighter Scalar.minimum s.upper t.upper⟩

def contains (s : Interval α) (delta ε : α) : Bool :=
  s.lower.all (fun lower => lower - ε ≤ delta) && s.upper.all fun upper => delta ≤ upper + ε

/-- The interval moved by the current value, so that it tells the values themselves. -/
def shift (s : Interval α) (current : α) : Interval α :=
  ⟨s.lower.map (current + ·), s.upper.map (current + ·)⟩

end Interval

namespace Condition

def holds (c : Condition α) (delta ε : α) : Bool :=
  !Scalar.isNegative (c.constant + c.coefficient * delta) ε

/-- The changes that satisfy the condition. A coefficient that is zero up to `ε` restricts nothing. -/
def interval (c : Condition α) (ε : α) : Interval α :=
  let bound := -c.constant / c.coefficient
  if Scalar.isPositive c.coefficient ε then ⟨some bound, none⟩
  else if Scalar.isNegative c.coefficient ε then ⟨none, some bound⟩
  else .unrestricted

end Condition

def Interval.ofConditions (conditions : List (Condition α)) (ε : α) : Interval α :=
  (conditions.map (·.interval ε)).foldl intersect unrestricted

end LinearProgramming
