/-! # Scalars

The arithmetic that every algorithm of this library is written over. A scalar type brings the field
operations, the order tests and the roundings to integers, and nothing is assumed about them, so a
definition over `Scalar` can be run on binary floating point and be studied over the rationals.

Two instances stand here: `Float`, where each operation is the rounded one, and `Rat`, where each
operation is exact. -/

namespace LinearProgramming

/-- Operations and order tests of the numbers that a linear program is stated in. Sums start at `neutral`, which
changes no summand, its sign of zero included. A half is rounded away from zero. -/
class Scalar (α : Type) extends Zero α, One α, Add α, Sub α, Mul α, Div α, Neg α, LT α, LE α,
    BEq α, OfScientific α where
  decLt : DecidableLT α
  decLe : DecidableLE α
  neutral : α
  abs : α → α
  floor : α → α
  ceil : α → α
  round : α → α
  isFinite : α → Bool

attribute [reducible, instance] Scalar.decLt Scalar.decLe

/-- Binary floating point. Adding negative zero keeps every value, the two zeros included. -/
instance instScalarFloat : Scalar Float where
  zero := 0.0
  one := 1.0
  toAdd := instAddFloat
  toSub := instSubFloat
  toMul := instMulFloat
  toDiv := instDivFloat
  toNeg := instNegFloat
  toLT := instLTFloat
  toLE := instLEFloat
  toBEq := instBEqFloat
  toOfScientific := instOfScientificFloat
  decLt := Float.decLt
  decLe := Float.decLe
  neutral := -0.0
  abs := Float.abs
  floor := Float.floor
  ceil := Float.ceil
  round := Float.round
  isFinite := Float.isFinite

instance instScalarRat : Scalar Rat where
  zero := 0
  one := 1
  toAdd := Rat.instAdd
  toSub := Rat.instSub
  toMul := Rat.instMul
  toDiv := Rat.instDiv
  toNeg := Rat.instNeg
  toLT := Rat.instLT
  toLE := Rat.instLE
  toBEq := instBEqOfDecidableEq
  toOfScientific := Rat.instOfScientific
  decLt := Rat.instDecidableLt
  decLe := Rat.instDecidableLe
  neutral := 0
  abs q := if q < 0 then -q else q
  floor q := q.floor
  ceil q := q.ceil
  round q := if q < 0 then -((mkRat 1 2 - q).floor : Rat) else ((q + mkRat 1 2).floor : Rat)
  isFinite _ := true

namespace Scalar

variable {α : Type} [Scalar α]

/-- The larger of two values. A value that is not equal to itself loses to any other, and of two equal
values the second is taken. -/
def maximum (a b : α) : α := if b < a then a else if b == b then b else a

def minimum (a b : α) : α := if a < b then a else if b == b then b else a

/-- Sum of a list, from left to right. -/
def sum (xs : List α) : α := xs.foldl (· + ·) neutral

/-- Inner product, over the shorter of the two lengths. -/
def dot (xs ys : List α) : α := sum (List.zipWith (· * ·) xs ys)

end Scalar

end LinearProgramming
