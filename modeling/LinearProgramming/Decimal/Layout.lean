import LinearProgramming.Decimal.Shortest

/-! # Layout of shortest decimals

How the shortest digits of a double are written: with a decimal point in place, or as digits and a power of
ten. -/

namespace LinearProgramming.Decimal

/-- Choices of a notation: whether a number whose first digit counts `10 ^ e` is written without a power of ten, and
what follows an integer written so. -/
structure Layout where
  positional : Int → Bool
  integerSuffix : String

/-- Every number without a power of ten, integers without a point. -/
def Layout.plain : Layout := ⟨fun _ => true, ""⟩

/-- A power of ten from `10 ^ 16` on and below `10 ^ -4`; integers end in `.0`, so that the text always shows
a number that is not an index. -/
def Layout.exact : Layout := ⟨fun e => -4 ≤ e && e < 16, ".0"⟩

/-- The decimal point put `point` digits after the start of `digits`, zeros filling the gap. -/
def placePoint (layout : Layout) (digits : String) (point : Int) : String :=
  if point ≤ 0 then "0." ++ String.ofList (List.replicate (-point).toNat '0') ++ digits
  else if (digits.length : Int) ≤ point then
    digits ++ String.ofList (List.replicate (point.toNat - digits.length) '0') ++ layout.integerSuffix
  else
    String.ofList (digits.toList.take point.toNat) ++ "." ++ String.ofList (digits.toList.drop point.toNat)

def powerForm (digits : String) (e : Int) : String :=
  let tail := String.ofList (digits.toList.drop 1)
  String.ofList (digits.toList.take 1) ++ (if tail.isEmpty then "" else "." ++ tail) ++ "e" ++ Int.repr e

def Layout.magnitude (layout : Layout) (x : Magnitude) : String :=
  if x.mantissa = 0 then "0" ++ layout.integerSuffix
  else
    let shortest := x.shortest
    let digits := Nat.repr shortest.coefficient
    let e := shortest.exponent + digits.length - 1
    if layout.positional e then placePoint layout digits (e + 1) else powerForm digits e

/-- Text of a double. A minus sign stays also in front of zero. -/
def Layout.render (layout : Layout) (x : Float) : String :=
  match Reading.ofFloat x with
  | .undefined => "NaN"
  | .infinite negative => if negative then "-inf" else "inf"
  | .finite negative magnitude => (if negative then "-" else "") ++ layout.magnitude magnitude

end LinearProgramming.Decimal
