import LinearProgramming.Decimal.Binary

/-! # Decimals with a fixed number of places

The exact binary value is rounded once, to the nearest multiple of the last place, and a tie goes to the even
multiple. -/

namespace LinearProgramming.Decimal

/-- The quotient `num / den` rounded to the nearest integer, a tie going to the even one. -/
def roundDiv (num den : Nat) : Nat :=
  let quotient := num / den
  let twice := 2 * (num % den)
  if twice < den then quotient
  else if den < twice then quotient + 1
  else quotient + quotient % 2

def Magnitude.units (x : Magnitude) (places : Nat) : Nat :=
  roundDiv (x.mantissa * powerOfTwo x.exponent.toNat * powerOfTen places) (powerOfTwo (-x.exponent).toNat)

def padLeft (width : Nat) (text : String) : String :=
  String.ofList (List.replicate (width - text.length) ' ') ++ text

def zeroPadded (width n : Nat) : String :=
  let digits := Nat.repr n
  String.ofList (List.replicate (width - digits.length) '0') ++ digits

/-- Text of a double with a fixed, positive number of places. A minus sign stays also in front of zero. -/
def fixed (places : Nat) (x : Float) : String :=
  match Reading.ofFloat x with
  | .undefined => "NaN"
  | .infinite negative => if negative then "-inf" else "inf"
  | .finite negative magnitude =>
    let units := magnitude.units places
    let scale := powerOfTen places
    (if negative then "-" else "") ++ Nat.repr (units / scale) ++ "." ++ zeroPadded places (units % scale)

end LinearProgramming.Decimal
