import AdaptiveJoin.Value

/-!
# Columns and tables

A column holds cells of one kind, some of them null.  A table is a list of columns with one number
of rows; `Table.ofColumns` refuses columns of different lengths.

Cells are compared in place, without building the values they hold.  A null compares with nothing.
-/

namespace AdaptiveJoin

/-- The cells of a column, `none` for a null. -/
inductive Cells where
  | int (cells : Array (Option Int64))
  | double (cells : Array (Option Double))
  | text (cells : Array (Option String))
deriving Inhabited

/-- A named column. -/
structure Column where
  name : String
  cells : Cells
deriving Inhabited

namespace Column

/-- The number of rows. -/
def size (c : Column) : Nat :=
  match c.cells with
  | .int xs => xs.size
  | .double xs => xs.size
  | .text xs => xs.size

def isEmpty (c : Column) : Bool := c.size == 0

def kind (c : Column) : Kind :=
  match c.cells with
  | .int _ => .int
  | .double _ => .double
  | .text _ => .text

/-- The value in a row, `none` for a null and beyond the last row. -/
def value? (c : Column) (row : Nat) : Option Value :=
  match c.cells with
  | .int xs => xs[row]?.join.map .int
  | .double xs => xs[row]?.join.map .double
  | .text xs => xs[row]?.join.map .text

/-- Compares the cell of a column with a cell of another column, in place.  `none` if either is
null or their kinds do not compare. -/
def compareCells (a : Column) (row : Nat) (b : Column) (row' : Nat) : Option Ordering :=
  match a.cells, b.cells with
  | .int xs, .int ys =>
    xs[row]?.join.bind fun x => ys[row']?.join.map fun y => compareInt x y
  | .double xs, .double ys =>
    xs[row]?.join.bind fun x => ys[row']?.join.bind fun y => x.compare? y
  | .int xs, .double ys =>
    xs[row]?.join.bind fun x => ys[row']?.join.bind fun y => (Double.ofInt64 x).compare? y
  | .double xs, .int ys =>
    xs[row]?.join.bind fun x => ys[row']?.join.bind fun y => x.compare? (Double.ofInt64 y)
  | .text xs, .text ys =>
    xs[row]?.join.bind fun x => ys[row']?.join.map fun y => compareText x y
  | _, _ => none

/-- Compares the cell of a column with a constant, in place.  `none` if the cell is null or the
kinds do not compare. -/
def compareValue (a : Column) (row : Nat) (v : Value) : Option Ordering :=
  match a.cells, v with
  | .int xs, .int y => xs[row]?.join.map fun x => compareInt x y
  | .int xs, .double y => xs[row]?.join.bind fun x => (Double.ofInt64 x).compare? y
  | .double xs, .double y => xs[row]?.join.bind fun x => x.compare? y
  | .double xs, .int y => xs[row]?.join.bind fun x => x.compare? (Double.ofInt64 y)
  | .text xs, .text y => xs[row]?.join.map fun x => compareText x y
  | _, _ => none

end Column

/-- The number of rows that the first of some columns has, 0 without columns. -/
def commonRows (columns : Array Column) : Nat := (columns[0]?.map Column.size).getD 0

/-- A named table: columns of one length. -/
structure Table where
  name : String
  columns : Array Column
  uniform : ∀ c ∈ columns, c.size = commonRows columns

instance : Inhabited Table := ⟨⟨"", #[], by simp⟩⟩

/-- A column that is not as long as the first column of its table. -/
structure RaggedColumn where
  column : String
  table : String
  rows : Nat
  expected : Nat
deriving DecidableEq, Repr

def RaggedColumn.message (e : RaggedColumn) : String :=
  "Column '" ++ e.column ++ "' of table '" ++ e.table ++ "' has " ++ toString e.rows ++
    " rows, expected " ++ toString e.expected

namespace Table

/-- The table of some columns; the first column of another length than the leading one is an
error. -/
def ofColumns (name : String) (columns : Array Column) : Except RaggedColumn Table :=
  match h : columns.find? (fun c => c.size != commonRows columns) with
  | some c => .error ⟨c.name, name, c.size, commonRows columns⟩
  | none => .ok ⟨name, columns, by
      intro c hc
      have := Array.find?_eq_none.1 h c hc
      simpa using this⟩

/-- The number of rows. -/
def cardinality (t : Table) : Nat := commonRows t.columns

/-- The position of the first column of a name. -/
def columnIndex? (t : Table) (name : String) : Option Nat :=
  t.columns.findIdx? fun c => c.name == name

/-- The first column of a name. -/
def columnNamed? (t : Table) (name : String) : Option Column :=
  t.columns.find? fun c => c.name == name

end Table

end AdaptiveJoin
