import AdaptiveJoin.Index.Key
import AdaptiveJoin.Index.Runs

/-!
# Indexes over columns

An index over a column finds the rows whose cell equals a constant or a cell of another column.
Only cells of the kind of the indexed column can be looked up; a constant is looked up under the
key that it has for that kind.
-/

namespace AdaptiveJoin

/-- An index over a column of some kind. -/
inductive ColumnIndex where
  | int (runs : Runs Int64)
  | double (runs : Runs DoubleKey)
  | text (runs : Runs String)

namespace ColumnIndex

/-- The index over a column. -/
def ofColumn (c : Column) : Except IndexError ColumnIndex :=
  let absent {κ : Type} : Array (Option κ) := Array.replicate c.size none
  match c.kind with
  | .int => (Runs.ofKeys c.name (c.intKeys?.getD absent)).map .int
  | .double => (Runs.ofKeys c.name (c.doubleKeys?.getD absent)).map .double
  | .text => (Runs.ofKeys c.name (c.textKeys?.getD absent)).map .text

def kind : ColumnIndex → Kind
  | int _ => .int
  | double _ => .double
  | text _ => .text

/-- The number of rows of the indexed column. -/
def cardinality : ColumnIndex → Nat
  | int ix => ix.cardinality
  | double ix => ix.cardinality
  | text ix => ix.cardinality

/-- The number of different keys. -/
def nrDistinct : ColumnIndex → Nat
  | int ix => ix.nrDistinct
  | double ix => ix.nrDistinct
  | text ix => ix.nrDistinct

/-- The number of rows that have a key. -/
def nrIndexed : ColumnIndex → Nat
  | int ix => ix.nrIndexed
  | double ix => ix.nrIndexed
  | text ix => ix.nrIndexed

/-- Whether a constant has a key in the indexed column. -/
def accepts (ix : ColumnIndex) (v : Value) : Bool :=
  match ix with
  | int _ => v.intKey?.isSome
  | double _ => v.doubleKey?.isSome
  | text _ => v.textKey?.isSome

/-- The first row after `after` whose cell equals the cell of another column.  A null, a cell of
another kind and what is not a number equal nothing and leave the cursor alone. -/
def lookupCell (ix : ColumnIndex) (source : Column) (row : Nat) (after : Int) (cursor : Cursor) :
    Option Nat × Cursor :=
  match ix, source.cells with
  | int runs, .int xs =>
    match xs[row]?.join with
    | some key => runs.nextRowCached? key after cursor
    | none => (none, cursor)
  | double runs, .double xs =>
    match xs[row]?.join.bind DoubleKey.ofDouble? with
    | some key => runs.nextRowCached? key after cursor
    | none => (none, cursor)
  | text runs, .text xs =>
    match xs[row]?.join with
    | some key => runs.nextRowCached? key after cursor
    | none => (none, cursor)
  | _, _ => (none, cursor)

/-- The first row after `after` that holds a constant. -/
def lookupValue (ix : ColumnIndex) (v : Value) (after : Int) (cursor : Cursor) :
    Option Nat × Cursor :=
  match ix with
  | int runs => (v.intKey?.map (runs.nextRowCached? · after cursor)).getD (none, cursor)
  | double runs => (v.doubleKey?.map (runs.nextRowCached? · after cursor)).getD (none, cursor)
  | text runs => (v.textKey?.map (runs.nextRowCached? · after cursor)).getD (none, cursor)

/-- The first row after `after` that holds a constant, without a cursor. -/
def nextRow? (ix : ColumnIndex) (v : Value) (after : Int) : Option Nat :=
  match ix with
  | int runs => v.intKey?.bind (runs.nextRow? · after)
  | double runs => v.doubleKey?.bind (runs.nextRow? · after)
  | text runs => v.textKey?.bind (runs.nextRow? · after)

/-- The first row after `after` that holds a constant, among those of one worker. -/
def lookupInPartition? (ix : ColumnIndex) (v : Value) (after : Int) (worker workers : Nat) :
    Option Nat :=
  match ix with
  | int runs => v.intKey?.bind (runs.nextRowInPartition? · after worker workers)
  | double runs => v.doubleKey?.bind (runs.nextRowInPartition? · after worker workers)
  | text runs => v.textKey?.bind (runs.nextRowInPartition? · after worker workers)

/-- The number of rows that hold a constant. -/
def countValue (ix : ColumnIndex) (v : Value) : Nat :=
  match ix with
  | int runs => (v.intKey?.map runs.count).getD 0
  | double runs => (v.doubleKey?.map runs.count).getD 0
  | text runs => (v.textKey?.map runs.count).getD 0

/-- The worker that a row is dealt to. -/
def workerOfRow? (ix : ColumnIndex) (row workers : Nat) : Option Nat :=
  match ix with
  | int runs => runs.workerOfRow? row workers
  | double runs => runs.workerOfRow? row workers
  | text runs => runs.workerOfRow? row workers

end ColumnIndex

end AdaptiveJoin
