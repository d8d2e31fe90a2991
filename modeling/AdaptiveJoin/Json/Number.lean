/-!
# Numbers in JSON texts

A `JsonNumber` holds the digits of a number as they are written.  It can be read as a 64-bit word,
if it is written as an integer in range, and as a double.

Reading a double takes one rounded integer and one rounded multiplication or division.  The integer
is made of the leading digits that fit a 64-bit word; further digits of the whole part count as
powers of ten, further digits of the fraction are dropped.
-/

namespace AdaptiveJoin

/-- A number as it is written. -/
structure JsonNumber where
  negative : Bool
  /-- The digits before the point. -/
  whole : List Nat
  /-- The digits behind the point, none without a point. -/
  fraction : List Nat
  /-- The exponent: whether it is negative, and its digits. -/
  exponent : Option (Bool × List Nat)
deriving DecidableEq, Repr, Inhabited

namespace JsonNumber

/-- The smallest number that does not fit a 64-bit word. -/
def wordLimit : Nat := 0x10000000000000000

/-- The number that some digits write. -/
def ofDigits (digits : List Nat) : Nat := digits.foldl (fun n d => n * 10 + d) 0

/-- Appends digits to a number as long as it fits a 64-bit word.  Answers the number and the digits
that are left. -/
def takeDigits (n : Nat) : List Nat → Nat × List Nat
  | [] => (n, [])
  | d :: ds => if n * 10 + d < wordLimit then takeDigits (n * 10 + d) ds else (n, d :: ds)

/-- The value of a number that is written as an integer, if it fits a 64-bit word. -/
def toUInt64? (x : JsonNumber) : Option UInt64 :=
  if x.negative || !x.fraction.isEmpty || x.exponent.isSome then none
  else
    let n := ofDigits x.whole
    if n < wordLimit then some (UInt64.ofNat n) else none

/-- The digits that fit a 64-bit word, and the power of ten that they are multiplied with, apart
from the exponent that is written. -/
def significand (x : JsonNumber) : Nat × Int :=
  -- Digits of the fraction are taken even if some of the whole part are left.
  let (n, wholeLeft) := takeDigits 0 x.whole
  let (n, fractionLeft) := takeDigits n x.fraction
  (n, (wholeLeft.length : Int) - ((x.fraction.length : Int) - fractionLeft.length))

/-- The largest power of ten that is a double. -/
def maxPower : Nat := 308

/-- The double nearest to a power of ten. -/
def powerOfTen (e : Nat) : Float := Float.ofScientific 1 false e

/-- Divides by a power of ten, in steps of at most the largest power. -/
def divideByPower (x : Float) (e : Nat) : Float :=
  if e ≤ maxPower then x / powerOfTen e
  else if x == 0 then x
  else divideByPower (x / powerOfTen maxPower) (e - maxPower)
termination_by e
decreasing_by simp [maxPower] at *; omega

/-- A number times a power of ten, `none` if it is too large for a double. -/
def scale? (n : Nat) (e : Int) : Option Float :=
  let x := (UInt64.ofNat n).toFloat
  if e < 0 then some (divideByPower x (-e).toNat)
  else if e ≤ maxPower then
    let y := x * powerOfTen e.toNat
    if y.isInf then none else some y
  -- The power alone is too large, but no power makes zero too large.
  else if n = 0 then some x
  else none

/-- The largest exponent that is taken into account; larger ones make any number zero or too
large. -/
def maxExponent : Nat := 2147483647

/-- The magnitude of a number as a double, `none` if it is too large. -/
def magnitude? (x : JsonNumber) : Option Float :=
  let (n, e) := x.significand
  match x.exponent with
  | none => scale? n e
  | some (negative, digits) =>
    let written := ofDigits digits
    if maxExponent < written then
      if negative || n = 0 then some 0 else none
    else scale? n (if negative then e - written else e + written)

/-- The number as a double, `none` if it is too large. -/
def toFloat? (x : JsonNumber) : Option Float :=
  x.magnitude?.map fun m => if x.negative then -m else m

end JsonNumber

end AdaptiveJoin
