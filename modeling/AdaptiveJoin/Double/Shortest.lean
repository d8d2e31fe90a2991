import AdaptiveJoin.Double.Basic

/-!
# The shortest decimal of a double

A double is written with the fewest decimal digits that still read back as the same double.  The
numbers that read back as `d` form an interval around its value (`Double.readers`).  A grid of
decimals `10 ^ k * ℕ` is tried for smaller and smaller `k`; the first grid on which one of the two
neighbours of the value lies in the interval gives the digits (`Double.shortest`).

The text is positional for every exponent: no exponent mark, no fractional part on integral values.
-/

namespace AdaptiveJoin

namespace Double

/-- The numbers that read back as one double, as fractions over a common denominator.  The ends
read back too if `closed`. -/
structure Readers where
  low : Nat
  value : Nat
  high : Nat
  denominator : Nat
  closed : Bool
deriving Repr

/-- The interval of the numbers that read back as a finite double of positive magnitude: half way
to either neighbour, and the lower neighbour of a power of two is half as far.  Reading rounds a
tie to the even significand. -/
def readers (d : Double) : Readers :=
  let m := d.significand
  let below := if d.fraction = 0 ∧ 1 < d.exponentField then 1 else 2
  let up := 1 <<< (d.scale - scaleBias)
  { low := (4 * m - below) * up
    value := 4 * m * up
    high := (4 * m + 2) * up
    -- A quarter of a unit in the last place is the common measure of the three numerators.
    denominator := 4 <<< (scaleBias - d.scale)
    closed := m % 2 = 0 }

/-- The decimal `digits * 10 ^ exponent`. -/
structure Decimal where
  digits : Nat
  exponent : Int
deriving Repr, DecidableEq

/-- The neighbour of the value on the grid of multiples of `10 ^ k` that reads back as the double.
Of two such neighbours the nearer one is taken, and the larger one on a tie. -/
def Readers.onGrid? (r : Readers) (k : Int) : Option Decimal :=
  let fine := Nat.pow 10 (-k).toNat
  let coarse := r.denominator * Nat.pow 10 k.toNat
  let reads (n : Nat) : Bool :=
    if r.closed then r.low * fine ≤ n * coarse && n * coarse ≤ r.high * fine
    else r.low * fine < n * coarse && n * coarse < r.high * fine
  let floor := r.value * fine / coarse
  match reads floor, reads (floor + 1) with
  | false, false => none
  | true, false => some ⟨floor, k⟩
  | false, true => some ⟨floor + 1, k⟩
  -- Twice the value is compared with the sum of the two neighbours.
  | true, true =>
    if 2 * r.value * fine < (2 * floor + 1) * coarse then some ⟨floor, k⟩
    else some ⟨floor + 1, k⟩

/-- The first hit on the grids of exponent `k`, `k - 1`, …: `grids` of them are tried. -/
def Readers.firstGrid (r : Readers) (k : Int) : Nat → Decimal
  | 0 => ⟨0, 0⟩
  | grids + 1 => (r.onGrid? k).getD (r.firstGrid (k - 1) grids)

/-- The shortest decimal of a finite double of positive magnitude.  The first grid is coarser than
the value, by the bound `log10 2 < 30103 / 100000` on its leading exponent, and at most 17 digits
are needed from the leading one on. -/
def shortest (d : Double) : Decimal :=
  let r := d.readers
  let leading : Int := (r.value.log2 : Int) + 1 - r.denominator.log2
  -- The value is less than `2 ^ leading`.
  r.firstGrid (Int.fdiv (leading * 30103) 100000 + 1) 24

/-- A decimal in positional notation. -/
def Decimal.positional (x : Decimal) : String :=
  let digits := Nat.toDigits 10 x.digits
  let places := (-x.exponent).toNat
  if places = 0 then String.ofList (digits ++ List.replicate x.exponent.toNat '0')
  else if digits.length ≤ places then
    String.ofList ('0' :: '.' :: List.replicate (places - digits.length) '0' ++ digits)
  else
    let whole := digits.length - places
    String.ofList (digits.take whole ++ '.' :: digits.drop whole)

/-- The text of a double: its shortest decimal in positional notation, with names for the patterns
that are not finite. -/
def text (d : Double) : String :=
  if d.isNaN then "NaN"
  else
    let unsigned :=
      if !d.isFinite then "inf"
      else if d.magnitude = 0 then "0"
      else d.shortest.positional
    if d.isNegative then "-" ++ unsigned else unsigned

end Double

end AdaptiveJoin
