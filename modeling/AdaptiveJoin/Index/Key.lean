import AdaptiveJoin.Table

/-!
# Keys of an index

An index groups the rows of a column by keys: integers, texts, and doubles in a form in which
numerically equal doubles are the same key.  A constant may have a key for columns of another kind:
an integral double for integer columns, any integer for double columns.
-/

namespace AdaptiveJoin

/-- A double as a key: the two zeros are one key, and what is not a number has none. -/
structure DoubleKey where
  value : Double
deriving DecidableEq, Hashable, Inhabited

/-- The key of a double. -/
def DoubleKey.ofDouble? (d : Double) : Option DoubleKey :=
  if d.isNaN then none
  else if d.magnitude = 0 then some ⟨⟨0⟩⟩
  else some ⟨d⟩

namespace Value

/-- The key of a constant in integer columns.  A double has one if it is integral and less than
`2 ^ 63` in magnitude. -/
def intKey? : Value → Option Int64
  | int i => some i
  | double d =>
    match d.toInt? with
    -- The bound is symmetric, so the smallest 64-bit integer is not the key of a double.
    | some i => if i.natAbs < Double.signUnit then some (Int64.ofInt i) else none
    | none => none
  | text _ => none

/-- The key of a constant in double columns. -/
def doubleKey? : Value → Option DoubleKey
  | int i => DoubleKey.ofDouble? (Double.ofInt64 i)
  | double d => DoubleKey.ofDouble? d
  | text _ => none

/-- The key of a constant in text columns. -/
def textKey? : Value → Option String
  | text s => some s
  | _ => none

end Value

namespace Column

/-- The keys of an integer column, `none` for its nulls. -/
def intKeys? (c : Column) : Option (Array (Option Int64)) :=
  match c.cells with
  | .int xs => some xs
  | _ => none

/-- The keys of a double column, `none` for its nulls and what is not a number. -/
def doubleKeys? (c : Column) : Option (Array (Option DoubleKey)) :=
  match c.cells with
  | .double xs => some (xs.map (·.bind DoubleKey.ofDouble?))
  | _ => none

/-- The keys of a text column, `none` for its nulls. -/
def textKeys? (c : Column) : Option (Array (Option String)) :=
  match c.cells with
  | .text xs => some xs
  | _ => none

end Column

end AdaptiveJoin
