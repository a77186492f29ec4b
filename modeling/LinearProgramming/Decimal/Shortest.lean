import LinearProgramming.Decimal.Binary

/-! # Shortest decimals

The decimal with the fewest digits among those that round to a given double, and of these the one nearest
to it. The reals that round to a double form an interval around it, whose ends belong to it exactly when the
mantissa is even. Going through ever finer decimal grids, the first grid with a point in that interval gives
the number of digits. -/

namespace LinearProgramming.Decimal

/-- The decimal `coefficient * 10 ^ exponent`. -/
structure Digits where
  coefficient : Nat
  exponent : Int

/-- A magnitude and its rounding interval on the decimal grid of step `10 ^ k`, all in one common unit:
`grid` is the step, `value` the magnitude, `lower` and `upper` the ends of the interval. -/
structure OnGrid where
  grid : Nat
  value : Nat
  lower : Nat
  upper : Nat

/-- Scale by four, so that the interval ends are integers too, and clear negative powers of two and ten. -/
def Magnitude.onGrid (x : Magnitude) (k : Int) : OnGrid :=
  let unit := powerOfTwo (x.exponent - 2).toNat * powerOfTen (-k).toNat
  { grid := powerOfTen k.toNat * powerOfTwo (2 - x.exponent).toNat
    value := 4 * x.mantissa * unit
    lower := (4 * x.mantissa - if x.closerBelow then 1 else 2) * unit
    upper := (4 * x.mantissa + 2) * unit }

def OnGrid.contains (g : OnGrid) (endsIncluded : Bool) (c : Nat) : Bool :=
  if endsIncluded then g.lower ≤ c * g.grid && c * g.grid ≤ g.upper
  else g.lower < c * g.grid && c * g.grid < g.upper

/-- The point of the grid nearest to the magnitude among its two neighbours that lie in the interval. An exact
tie goes to the upper one. -/
def OnGrid.nearest? (g : OnGrid) (endsIncluded : Bool) : Option Nat :=
  let below := g.value / g.grid
  let above := below + 1
  match g.contains endsIncluded below, g.contains endsIncluded above with
  | false, false => none
  | true, false => some below
  | false, true => some above
  | true, true => if g.value - below * g.grid < above * g.grid - g.value then some below else some above

def Magnitude.searchGrids (x : Magnitude) : Nat → Int → Digits
  | 0, k => ⟨(x.onGrid k).value / (x.onGrid k).grid, k⟩
  | steps + 1, k =>
    match (x.onGrid k).nearest? (x.mantissa % 2 == 0) with
    | some c => ⟨c, k⟩
    | none => x.searchGrids steps (k - 1)

/-- The shortest decimal of a magnitude other than zero. The first grid is coarser than the magnitude, since
`0.30103` exceeds the decimal logarithm of two; seventeen digits always suffice, so twenty-four grids do. -/
def Magnitude.shortest (x : Magnitude) : Digits :=
  let binary : Int := x.exponent + (x.mantissa.log2 + 1)
  x.searchGrids 24 (binary * 30103 / 100000 + 2)

end LinearProgramming.Decimal
