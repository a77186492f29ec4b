/-! # Exact binary values

A finite double is an integer times a power of two. Decimal texts are decided on that exact form, in natural
numbers, and not on the rounded arithmetic. -/

namespace LinearProgramming.Decimal

def powerOfTwo (n : Nat) : Nat := Nat.pow 2 n

def powerOfTen (n : Nat) : Nat := Nat.pow 10 n

/-- The magnitude `mantissa * 2 ^ exponent` of a finite double. If it is `closerBelow`, the next smaller double is
only half as far away as the next larger one. -/
structure Magnitude where
  mantissa : Nat
  exponent : Int
  closerBelow : Bool

inductive Reading where
  | finite (negative : Bool) (magnitude : Magnitude)
  | infinite (negative : Bool)
  | undefined

/-- Magnitude from the biased exponent and the fraction bits. The least exponent has no leading one, and at a
power of two above the first binade the spacing below is halved. -/
def Magnitude.ofFields (biased fraction : Nat) : Magnitude :=
  if biased = 0 then ⟨fraction, -1074, false⟩
  else ⟨powerOfTwo 52 + fraction, biased - 1075, fraction = 0 ∧ 1 < biased⟩

/-- Read a double from its sign bit, eleven exponent bits and fifty-two fraction bits. -/
def Reading.ofFloat (x : Float) : Reading :=
  let bits := x.toBits.toNat
  let negative := bits / powerOfTwo 63 == 1
  let biased := bits / powerOfTwo 52 % powerOfTwo 11
  let fraction := bits % powerOfTwo 52
  if biased < 2047 then .finite negative (.ofFields biased fraction)
  else if fraction = 0 then .infinite negative
  else .undefined

end LinearProgramming.Decimal
