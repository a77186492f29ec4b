import LinearProgramming.Decimal.Layout
import LinearProgramming.Sensitivity.Analyzer

/-! # Text of conditions and ranges -/

namespace LinearProgramming

def Decimal.plain (x : Float) : String := Layout.plain.render x

def Condition.render (c : Condition Float) : String :=
  Decimal.plain c.constant ++ (if c.coefficient < 0 then " - " else " + ") ++
    Decimal.plain c.coefficient.abs ++ "Δ ≥ 0"

/-- Bounds that belong to the interval stand in brackets, infinite ones in parentheses. -/
def Interval.render (s : Interval Float) : String :=
  (match s.lower with
    | some lower => "[" ++ Decimal.plain lower ++ ", "
    | none => "(-∞, ") ++
  (match s.upper with
    | some upper => Decimal.plain upper ++ "]"
    | none => "∞)")

def RangeReport.render (r : RangeReport Float) : String :=
  "current value " ++ Decimal.plain r.current ++ "\n" ++
    String.join (r.conditions.map fun c => "  " ++ c.render ++ "\n") ++ "Δ ∈ " ++ r.interval.render

end LinearProgramming
