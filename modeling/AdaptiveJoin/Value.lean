import AdaptiveJoin.Double.Shortest

/-!
# Scalar values

The constants of predicates and the cells of columns are integers, doubles or texts.  Integers and
doubles compare by their numeric value, an integer being rounded to the nearest double first; texts
compare with texts only, in the order of their code points.
-/

namespace AdaptiveJoin

/-- The kinds of scalars that a column can hold. -/
inductive Kind where
  | int
  | double
  | text
deriving DecidableEq, Repr, Inhabited

/-- A scalar. -/
inductive Value where
  | int (i : Int64)
  | double (d : Double)
  | text (s : String)
deriving DecidableEq, Inhabited

/-- The order of two integers. -/
def compareInt (a b : Int64) : Ordering := compare a.toInt b.toInt

/-- The order of two texts, by their code points. -/
def compareText (a b : String) : Ordering := compare a b

namespace Value

def kind : Value → Kind
  | int _ => .int
  | double _ => .double
  | text _ => .text

/-- The numeric view of a value: texts have none. -/
def toDouble? : Value → Option Double
  | int i => some (Double.ofInt64 i)
  | double d => some d
  | text _ => none

/-- The order of two values, `none` if their kinds do not compare or one of them is not a number.
Two integers compare exactly, an integer and a double as doubles. -/
def compare? : Value → Value → Option Ordering
  | int a, int b => some (compareInt a b)
  | text a, text b => some (compareText a b)
  | a, b => a.toDouble?.bind fun x => b.toDouble?.bind fun y => x.compare? y

/-- Equality of values of one kind; values of different kinds are never equal, and doubles are
equal as numbers. -/
def sameAs : Value → Value → Bool
  | int a, int b => a == b
  | double a, double b => a.numericEq b
  | text a, text b => a == b
  | _, _ => false

/-- The text of a value; texts stand in single quotes, without escapes. -/
def render : Value → String
  | int i => toString i.toInt
  | double d => d.text
  | text s => "'" ++ s ++ "'"

end Value

end AdaptiveJoin
