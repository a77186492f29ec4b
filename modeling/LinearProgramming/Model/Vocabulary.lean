import LinearProgramming.Scalar.Basic

/-! # Vocabulary of linear programs -/

namespace LinearProgramming

inductive Relation where
  | equal
  | greater
  | less
  deriving DecidableEq, Repr

def Relation.symbol : Relation → String
  | equal => "="
  | greater => ">="
  | less => "<="

/-- The inequalities that a relation stands for. An equality is both of them, upper bound first. -/
def Relation.halves : Relation → List Relation
  | equal => [less, greater]
  | greater => [greater]
  | less => [less]

/-- Factor that turns a row of this relation into one with an upper bound. -/
def Relation.sign {α : Type} [Scalar α] : Relation → α
  | greater => -1
  | _ => 1

inductive BoundSide where
  | lower
  | upper
  deriving DecidableEq, Repr

def BoundSide.relation : BoundSide → Relation
  | lower => .greater
  | upper => .less

inductive VariableKind where
  | continuous
  | integer
  deriving DecidableEq, Repr

/-- The values that a variable may take. Integer variables are not negative, and binary ones are zero or one. -/
inductive VariableDomain where
  | nonnegative
  | nonpositive
  | free
  | integer
  | binary
  deriving DecidableEq, Repr

def VariableDomain.kind : VariableDomain → VariableKind
  | integer | binary => .integer
  | nonnegative | nonpositive | free => .continuous

inductive Direction where
  | maximize
  | minimize
  deriving DecidableEq, Repr

namespace Direction

variable {α : Type} [Scalar α]

/-- Factor that turns the objective into one to be maximised. -/
def sign : Direction → α
  | maximize => 1
  | minimize => -1

/-- Whether `candidate` improves on `incumbent` by more than `ε`. -/
def isBetter (d : Direction) (candidate incumbent ε : α) : Bool := ε < d.sign * (candidate - incumbent)

end Direction

end LinearProgramming
