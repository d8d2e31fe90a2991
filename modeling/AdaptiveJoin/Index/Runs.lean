import AdaptiveJoin.Query.Validity
import Std.Data.HashMap

/-!
# Rows grouped by key

`Runs κ` stores the rows of a column grouped by their keys.  All groups lie in one flat array: the
group of a key is a *run*, the number of its rows followed by the rows in ascending order.  Runs
are laid out in the order in which the keys first occur, and their offsets are 32-bit words
(`Layout`).  Every row also knows its place within its run, counted from 1.

The main operation is `nextRow?`: the first row of a key after a given row.  `nextRowCached?` gives
the same answer and starts from where the previous lookup ended; `nextRowInPartition?` looks at the
rows of one worker only, the places of a run being dealt out to the workers in turn.
-/

namespace AdaptiveJoin

/-- What can be wrong with an index. -/
inductive IndexError where
  /-- The runs do not hold all rows that have a key. -/
  | rowCountMismatch (column : String) (expected found : Nat)
  /-- A row follows a larger one. -/
  | unordered (column : String) (row : Nat)
  /-- A row is not at the place that it knows. -/
  | misplaced (column : String) (row : Nat)
  /-- The column is too long for row numbers. -/
  | tooManyRows (column : String) (rows : Nat)
deriving DecidableEq, Repr

def IndexError.message : IndexError → String
  | rowCountMismatch c expected found =>
    "index on column '" ++ c ++ "' holds " ++ toString found ++ " rows, expected " ++
      toString expected
  | unordered c row => "row " ++ toString row ++ " of column '" ++ c ++ "' is stored out of order"
  | misplaced c row =>
    "row " ++ toString row ++ " of column '" ++ c ++ "' is stored at the wrong run position"
  | tooManyRows c rows =>
    "column '" ++ c ++ "' has " ++ toString rows ++ " rows, more than a row index can address"

/-- The end of the part of the interval from `lo` to `hi` on which `p` holds, by bisection: `p`
has to hold on an initial part only. -/
def bisect (p : Nat → Bool) (lo hi : Nat) : Nat :=
  if lo < hi then
    let mid := (lo + hi) / 2
    if p mid then bisect p (mid + 1) hi else bisect p lo mid
  else lo
termination_by hi - lo

variable {κ : Type} [BEq κ] [Hashable κ]

/-! ### Layout -/

/-- The number of occurrences of every key. -/
def countKeys (keys : Array (Option κ)) : Std.HashMap κ Nat :=
  keys.foldl (fun counts key? =>
    match key? with
    | some key => counts.insert key (counts.getD key 0 + 1)
    | none => counts) ∅

/-- The offsets of runs: the distinct keys in the order of the runs, the offset of each, and the
offset of the next run. -/
structure Layout (κ : Type) [BEq κ] [Hashable κ] where
  order : Array κ
  offsets : Std.HashMap κ UInt32
  next : UInt32

/-- Places the run of a key behind the others, unless it has one. -/
def Layout.place (counts : Std.HashMap κ Nat) (l : Layout κ) (key : κ) : Layout κ :=
  if l.offsets.contains key then l
  else
    { order := l.order.push key
      offsets := l.offsets.insert key l.next
      next := l.next + UInt32.ofNat (counts.getD key 0 + 1) }

/-- The layout of the runs of some keys. -/
def Layout.ofKeys (keys : Array (Option κ)) : Layout κ :=
  let counts := countKeys keys
  keys.foldl (fun l key? =>
    match key? with
    | some key => l.place counts key
    | none => l) ⟨#[], ∅, 0⟩

/-! ### Runs -/

/-- The rows of a column grouped by key. -/
structure Runs (κ : Type) [BEq κ] [Hashable κ] where
  /-- The distinct keys, by their first occurrence. -/
  order : Array κ
  /-- The offset of the run of every key. -/
  offsets : Std.HashMap κ UInt32
  /-- All runs: at the offset of a run its length, then its rows. -/
  slots : Array Nat
  /-- The place of every row within its run, counted from 1; 0 for rows without key. -/
  places : Array Nat
  /-- The number of rows that have a key. -/
  nrIndexed : Nat

namespace Runs

/-- The number of rows of the column. -/
def cardinality (ix : Runs κ) : Nat := ix.places.size

def nrDistinct (ix : Runs κ) : Nat := ix.offsets.size

/-- The number of rows of the run at an offset. -/
def runLength (ix : Runs κ) (offset : UInt32) : Nat := ix.slots[offset.toNat]?.getD 0

/-- The row at a place, counted from 0, of the run at an offset. -/
def runRow? (ix : Runs κ) (offset : UInt32) (i : Nat) : Option Nat :=
  if i < ix.runLength offset then ix.slots[offset.toNat + 1 + i]? else none

/-- Appends a row to the run at an offset. -/
def append (ix : Runs κ) (offset : UInt32) (row : Nat) : Runs κ :=
  let length := ix.runLength offset + 1
  { ix with
    slots := (ix.slots.setIfInBounds offset.toNat length).setIfInBounds
      (offset.toNat + length) row
    places := ix.places.setIfInBounds row length }

/-- The fault of a place, counted from 0, of the run at an offset, if any. -/
def placeFault? (column : String) (ix : Runs κ) (offset : UInt32) (i : Nat) : Option IndexError :=
  match ix.runRow? offset i with
  | none => none
  | some row =>
    if 0 < i ∧ row ≤ (ix.runRow? offset (i - 1)).getD 0 then some (.unordered column row)
    else if ix.places[row]? ≠ some (i + 1) then some (.misplaced column row)
    else none

/-- The first fault of an index, if any: the runs ascend, every row is at the place that it knows,
and the runs hold all rows that have a key. -/
def fault? (column : String) (ix : Runs κ) : Option IndexError :=
  let offsets := ix.order.toList.filterMap fun key => ix.offsets[key]?
  let runFault? (offset : UInt32) : Option IndexError :=
    (List.range (ix.runLength offset)).findSome? (ix.placeFault? column offset)
  match offsets.findSome? runFault? with
  | some e => some e
  | none =>
    let found := offsets.foldl (fun sum offset => sum + ix.runLength offset) 0
    if found = ix.nrIndexed then none else some (.rowCountMismatch column ix.nrIndexed found)

/-- Groups the rows of a column by their keys, one key or none per row. -/
def ofKeys (column : String) (keys : Array (Option κ)) : Except IndexError (Runs κ) :=
  if rowLimit ≤ keys.size then .error (.tooManyRows column keys.size)
  else
    -- Every run needs a slot for its length besides those for its rows.
    let layout := Layout.ofKeys keys
    let nrIndexed := keys.countP Option.isSome
    let start : Runs κ :=
      { order := layout.order
        offsets := layout.offsets
        slots := Array.replicate (nrIndexed + layout.order.size) 0
        places := Array.replicate keys.size 0
        nrIndexed := nrIndexed }
    let ix := keys.zipIdx.foldl (fun ix (key?, row) =>
      match key?.bind (layout.offsets[·]?) with
      | some offset => ix.append offset row
      | none => ix) start
    match ix.fault? column with
    | some e => .error e
    | none => .ok ix

/-! ### Lookup -/

/-- The number of rows of a key. -/
def count (ix : Runs κ) (key : κ) : Nat :=
  match ix.offsets[key]? with
  | some offset => ix.runLength offset
  | none => 0

/-- The place of the first row after `after` in the run at an offset, not before place `start`. -/
def placeAfter (ix : Runs κ) (offset : UInt32) (after : Int) (start : Nat) : Nat :=
  bisect (fun i => ((ix.runRow? offset i).getD 0 : Int) ≤ after) start (ix.runLength offset)

/-- The first row of a key after `after`. -/
def nextRow? (ix : Runs κ) (key : κ) (after : Int) : Option Nat :=
  match ix.offsets[key]? with
  | none => none
  | some offset => ix.runRow? offset (ix.placeAfter offset after 0)

end Runs

/-- Where a lookup ended: the offset of its run and a place in it.  A fresh cursor has no run. -/
structure Cursor where
  run : Option UInt32
  place : Nat
deriving DecidableEq, Repr

/-- The cursor before any lookup. -/
def Cursor.fresh : Cursor := ⟨none, 0⟩

instance : Inhabited Cursor := ⟨.fresh⟩

namespace Runs

/-- Like `placeAfter`, starting from the place of a cursor if that is in the same run and not yet
past `after`.  The next place is tried first: it is the answer in an ascending scan. -/
def placeAfterCached (ix : Runs κ) (offset : UInt32) (after : Int) (cursor : Cursor) : Nat :=
  let here := (ix.runRow? offset cursor.place).any fun row => (row : Int) ≤ after
  -- Rows before the place of the cursor are not after `after`, because the run ascends.
  if cursor.run = some offset ∧ here then
    match ix.runRow? offset (cursor.place + 1) with
    | some row =>
      if after < (row : Int) then cursor.place + 1
      else ix.placeAfter offset after cursor.place
    | none => ix.placeAfter offset after cursor.place
  else ix.placeAfter offset after 0

/-- The first row of a key after `after`, and the cursor for the next lookup. -/
def nextRowCached? (ix : Runs κ) (key : κ) (after : Int) (cursor : Cursor) :
    Option Nat × Cursor :=
  match ix.offsets[key]? with
  | none => (none, .fresh)
  | some offset =>
    let i := ix.placeAfterCached offset after cursor
    match ix.runRow? offset i with
    | some row => (some row, ⟨some offset, i⟩)
    -- The run has no later row: the next ascending lookup of the key starts at its last row.
    | none => (none, ⟨some offset, ix.runLength offset - 1⟩)

/-- The first row of a key after `after` among those of one worker: the places of a run are dealt
out to the workers in turn. -/
def nextRowInPartition? (ix : Runs κ) (key : κ) (after : Int) (worker workers : Nat) :
    Option Nat :=
  if workers ≤ worker then none
  else
    match ix.offsets[key]? with
    | none => none
    | some offset =>
      let i := ix.placeAfter offset after 0
      -- The first place from `i` on whose remainder modulo `workers` is `worker`.
      ix.runRow? offset (i + (worker + workers - i % workers) % workers)

/-- The worker that a row is dealt to, `none` for rows without key. -/
def workerOfRow? (ix : Runs κ) (row workers : Nat) : Option Nat :=
  match ix.places[row]? with
  | some place => if 0 < place ∧ 0 < workers then some ((place - 1) % workers) else none
  | none => none

end Runs

end AdaptiveJoin
