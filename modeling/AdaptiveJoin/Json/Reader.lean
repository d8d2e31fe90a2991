import AdaptiveJoin.Json.Number

/-!
# Reading JSON texts

`Json.read?` reads a text that holds one JSON value between blanks, and nothing else.  Strings keep
the code units of their escapes, because a text may hold an escaped half of a surrogate pair; such a
string has no text (`textOfUnits?`).
-/

namespace AdaptiveJoin

/-- A JSON value as it is written. -/
inductive Json where
  | null
  | bool (b : Bool)
  | number (x : JsonNumber)
  /-- A string of code points and of code units that are written as escapes. -/
  | string (units : List Nat)
  | array (items : List Json)
  /-- The members in the order in which they are written. -/
  | object (members : List (List Nat × Json))
deriving Inhabited

namespace Json

/-! ### Strings -/

/-- Joins the halves of surrogate pairs and makes characters of code points.  `none` if a half
stands alone. -/
def charsOfUnits? : List Nat → Option (List Char)
  | [] => some []
  | u :: rest =>
    if 0xD800 ≤ u ∧ u < 0xDC00 then
      match rest with
      | [] => none
      | v :: rest =>
        if 0xDC00 ≤ v ∧ v < 0xE000 then
          (charsOfUnits? rest).map
            (Char.ofNat (0x10000 + (u - 0xD800) * 0x400 + (v - 0xDC00)) :: ·)
        else none
    else if 0xDC00 ≤ u ∧ u < 0xE000 then none
    else (charsOfUnits? rest).map (Char.ofNat u :: ·)

/-- The text of a string. -/
def textOfUnits? (units : List Nat) : Option String := (charsOfUnits? units).map String.ofList

/-- The value of a hexadecimal digit. -/
def hexDigit? (c : Char) : Option Nat :=
  if '0' ≤ c ∧ c ≤ '9' then some (c.toNat - 48)
  else if 'a' ≤ c ∧ c ≤ 'f' then some (c.toNat - 87)
  else if 'A' ≤ c ∧ c ≤ 'F' then some (c.toNat - 55)
  else none

/-- The code unit of four hexadecimal digits. -/
def hexUnit? (a b c d : Char) : Option Nat := do
  return (((← hexDigit? a) * 16 + (← hexDigit? b)) * 16 + (← hexDigit? c)) * 16 + (← hexDigit? d)

/-- The code point that an escape of one letter stands for. -/
def escape? (c : Char) : Option Nat :=
  match c with
  | '"' => some 34
  | '\\' => some 92
  | '/' => some 47
  | 'b' => some 8
  | 'f' => some 12
  | 'n' => some 10
  | 'r' => some 13
  | 't' => some 9
  | _ => none

/-- Reads a string behind its opening quote.  Control characters have to be escaped. -/
def stringBody? : List Char → Option (List Nat × List Char)
  | [] => none
  | '"' :: rest => some ([], rest)
  | '\\' :: 'u' :: a :: b :: c :: d :: rest =>
    (hexUnit? a b c d).bind fun u => (stringBody? rest).map fun (us, rest) => (u :: us, rest)
  | '\\' :: c :: rest =>
    (escape? c).bind fun u => (stringBody? rest).map fun (us, rest) => (u :: us, rest)
  | c :: rest =>
    if c.toNat < 32 || c == '\\' then none
    else (stringBody? rest).map fun (us, rest) => (c.toNat :: us, rest)

/-! ### Numbers -/

def isDigit (c : Char) : Bool := '0' ≤ c && c ≤ '9'

/-- The leading digits of a text and what follows them. -/
def digits (cs : List Char) : List Nat × List Char :=
  ((cs.takeWhile isDigit).map fun c => c.toNat - 48, cs.dropWhile isDigit)

/-- Reads the digits of a whole part: no zero in front of other digits. -/
def whole? (cs : List Char) : Option (List Nat × List Char) :=
  match digits cs with
  | ([], _) => none
  -- A zero in front of other digits.
  | (0 :: _ :: _, _) => none
  | read => some read

/-- Reads the point and the digits of a fraction, if there is one. -/
def fraction? : List Char → Option (List Nat × List Char)
  | '.' :: rest =>
    match digits rest with
    | ([], _) => none
    | read => some read
  | cs => some ([], cs)

/-- Reads an exponent, if there is one. -/
def exponent? : List Char → Option (Option (Bool × List Nat) × List Char)
  | c :: rest =>
    if c == 'e' || c == 'E' then
      let (negative, rest) := match rest with
        | '+' :: rest => (false, rest)
        | '-' :: rest => (true, rest)
        | rest => (false, rest)
      match digits rest with
      | ([], _) => none
      | (ds, rest) => some (some (negative, ds), rest)
    else some (none, c :: rest)
  | [] => some (none, [])

/-- Reads a number. -/
def number? (cs : List Char) : Option (JsonNumber × List Char) := do
  let (negative, cs) := match cs with
    | '-' :: rest => (true, rest)
    | cs => (false, cs)
  let (whole, cs) ← whole? cs
  let (fraction, cs) ← fraction? cs
  let (exponent, cs) ← exponent? cs
  return (⟨negative, whole, fraction, exponent⟩, cs)

/-! ### Values -/

def isBlank (c : Char) : Bool := c == ' ' || c == '\t' || c == '\n' || c == '\r'

/-- What follows the leading blanks of a text. -/
def skipBlanks (cs : List Char) : List Char := cs.dropWhile isBlank

mutual

/-- Reads a value and answers what follows it.  The first argument bounds the depth of the
recursion. -/
def value? : Nat → List Char → Option (Json × List Char)
  | 0, _ => none
  | depth + 1, cs =>
    match skipBlanks cs with
    | '"' :: rest => (stringBody? rest).map fun (us, rest) => (.string us, rest)
    | '[' :: rest =>
      match skipBlanks rest with
      | ']' :: rest => some (.array [], rest)
      | rest => (items? depth rest).map fun (items, rest) => (.array items, rest)
    | '\x7b' :: rest =>
      match skipBlanks rest with
      | '\x7d' :: rest => some (.object [], rest)
      | rest => (members? depth rest).map fun (members, rest) => (.object members, rest)
    | 'n' :: 'u' :: 'l' :: 'l' :: rest => some (.null, rest)
    | 't' :: 'r' :: 'u' :: 'e' :: rest => some (.bool true, rest)
    | 'f' :: 'a' :: 'l' :: 's' :: 'e' :: rest => some (.bool false, rest)
    | rest => (number? rest).map fun (x, rest) => (.number x, rest)

/-- Reads the items of an array that has some, and the bracket behind them. -/
def items? : Nat → List Char → Option (List Json × List Char)
  | 0, _ => none
  | depth + 1, cs =>
    match value? depth cs with
    | none => none
    | some (item, rest) =>
      match skipBlanks rest with
      | ']' :: rest => some ([item], rest)
      | ',' :: rest => (items? depth rest).map fun (items, rest) => (item :: items, rest)
      | _ => none

/-- Reads the members of an object that has some, and the brace behind them. -/
def members? : Nat → List Char → Option (List (List Nat × Json) × List Char)
  | 0, _ => none
  | depth + 1, cs =>
    match skipBlanks cs with
    | '"' :: rest =>
      match stringBody? rest with
      | none => none
      | some (key, rest) =>
        match skipBlanks rest with
        | ':' :: rest =>
          match value? depth rest with
          | none => none
          | some (item, rest) =>
            match skipBlanks rest with
            | '\x7d' :: rest => some ([(key, item)], rest)
            | ',' :: rest =>
              (members? depth rest).map fun (members, rest) => ((key, item) :: members, rest)
            | _ => none
        | _ => none
    | _ => none

end

/-- Reads a text that holds one value.  Every two steps of the recursion read a character. -/
def read? (text : String) : Option Json :=
  let cs := text.toList
  match value? (2 * cs.length + 2) cs with
  | some (v, rest) => if (skipBlanks rest).isEmpty then some v else none
  | none => none

end Json

end AdaptiveJoin
