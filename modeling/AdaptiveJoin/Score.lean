/-!
# Scores

Episodes are scored by numbers between 0 and 1.  The functions here keep scores there whatever
their arguments are.
-/

namespace AdaptiveJoin

/-- The quotient of two numbers, 0 unless the denominator is positive. -/
def safeRatio (numerator denominator : Float) : Float :=
  if 0 < denominator then numerator / denominator else 0

/-- The nearest number of the unit interval, 0 for what is not a number. -/
def clampUnit (x : Float) : Float :=
  if x.isNaN then 0
  else if x < 0 then 0
  else if 1 < x then 1
  else x

/-- A count as a number. -/
def countToFloat (n : Nat) : Float := (UInt64.ofNat n).toFloat

end AdaptiveJoin
