/-!
# Doubles as bit patterns

A `Double` is the 64-bit pattern of a binary64 number.  Its order and the integer that it stands
for are computed on the fields of the pattern with exact integer arithmetic, so that statements
about them need no axioms of floating-point arithmetic.

* `Double.compare?` is the numeric order; a pattern that is not a number compares with nothing.
* `Double.ofInt64` is the nearest double of an integer, a tie going to the even significand.
* `Double.toInt?` is the integer that an integral double stands for.
-/

namespace AdaptiveJoin

/-- A binary64 number, given by its bits.  Equality of `Double`s is equality of bits: it tells the
two zeros apart and identifies a pattern that is not a number with itself. -/
structure Double where
  /-- The sign bit, the 11 bits of the exponent field and the 52 bits of the fraction. -/
  bits : UInt64
deriving DecidableEq, Hashable, Inhabited

namespace Double

/-! ### The fields of a pattern -/

/-- The value of the sign bit. -/
def signUnit : Nat := 0x8000000000000000

/-- The value of the lowest bit of the exponent field. -/
def exponentUnit : Nat := 0x10000000000000

/-- The pattern of the positive infinity; larger magnitudes are not numbers. -/
def infinityMagnitude : Nat := 2047 * exponentUnit

/-- The pattern without its sign bit. -/
def magnitude (d : Double) : Nat := d.bits.toNat % signUnit

/-- Whether the sign bit is set. -/
def isNegative (d : Double) : Bool := signUnit ≤ d.bits.toNat

/-- The 11 bits of the exponent field. -/
def exponentField (d : Double) : Nat := d.magnitude / exponentUnit

/-- The 52 bits of the fraction. -/
def fraction (d : Double) : Nat := d.magnitude % exponentUnit

def isNaN (d : Double) : Bool := infinityMagnitude < d.magnitude

def isFinite (d : Double) : Bool := d.magnitude < infinityMagnitude

/-- The integer `m` of a finite double `± m * 2 ^ (scale - 1075)`: the fraction, with a leading one
in front unless the number is subnormal. -/
def significand (d : Double) : Nat :=
  if d.exponentField = 0 then d.fraction else exponentUnit + d.fraction

/-- The biased exponent of `significand`: subnormal numbers share the smallest one. -/
def scale (d : Double) : Nat := max d.exponentField 1

/-- The value of a finite double is `± significand * 2 ^ (scale - scaleBias)`. -/
def scaleBias : Nat := 1075

/-- The double of a sign and a magnitude. -/
def ofParts (negative : Bool) (magnitude : Nat) : Double :=
  ⟨UInt64.ofNat ((if negative then signUnit else 0) + magnitude)⟩

/-! ### Order -/

/-- An integer with the order of the doubles that are numbers: the two zeros share rank 0. -/
def rank (d : Double) : Int :=
  if d.isNegative then -(d.magnitude : Int) else d.magnitude

/-- Numeric comparison, `none` if either side is not a number. -/
def compare? (a b : Double) : Option Ordering :=
  if a.isNaN || b.isNaN then none else some (compare a.rank b.rank)

/-- Numeric equality: the two zeros are equal, and what is not a number equals nothing. -/
def numericEq (a b : Double) : Bool := a.compare? b == some .eq

/-! ### Integers -/

/-- The quotient of `m` by `2 ^ s` rounded to the nearest integer, a tie to the even one. -/
def roundQuotient (m s : Nat) : Nat :=
  let unit := 1 <<< s
  let quotient := m / unit
  let twice := 2 * (m % unit)
  -- The remainder is compared with half a unit.
  if unit < twice ∨ (twice = unit ∧ quotient % 2 = 1) then quotient + 1 else quotient

/-- The magnitude of the double nearest to a natural number, a tie going to the even significand.
A significand that rounds up to the next power of two carries into the exponent field. -/
def roundMagnitude (m : Nat) : Nat :=
  if m = 0 then 0
  else
    let top := m.log2
    let aligned := if top ≤ 52 then m <<< (52 - top) else roundQuotient m (top - 52)
    -- The leading one of `aligned` adds the last unit to the exponent field.
    (top + 1022) * exponentUnit + aligned

/-- The double nearest to a 64-bit integer. -/
def ofInt64 (i : Int64) : Double := ofParts (i.toInt < 0) (roundMagnitude i.toInt.natAbs)

/-- The integer that a double stands for, `none` if it has a fractional part or is not finite. -/
def toInt? (d : Double) : Option Int :=
  let signed (n : Nat) : Int := if d.isNegative then -(n : Int) else n
  if !d.isFinite then none
  else if scaleBias ≤ d.scale then some (signed (d.significand <<< (d.scale - scaleBias)))
  else
    let unit := 1 <<< (scaleBias - d.scale)
    if d.significand % unit = 0 then some (signed (d.significand / unit)) else none

/-! ### Machine arithmetic -/

/-- The number that machine arithmetic works on. -/
def toFloat (d : Double) : Float := Float.ofBits d.bits

/-- The pattern of a machine number. -/
def ofFloat (x : Float) : Double := ⟨x.toBits⟩

end Double

end AdaptiveJoin
