import AdaptiveJoin.Config.Basic
import AdaptiveJoin.Index.Catalog
import AdaptiveJoin.Score

/-!
# Filtering a table in slices

A `TableFilter` applies the predicates of one table to its rows, a slice of rows per call.  All rows
below its cursor are decided, and those on which all predicates hold are kept.

A `FilterChoice` says how a slice is decided: the order in which predicates are evaluated, the
predicate whose index supplies the rows, and into how many batches the rows are split.  The choice
changes the cost of a slice, which is what the reward of a call measures.

* `scan` decides the rows of the next slice one after another, in batches of consecutive rows.
* `indexScan` looks at the next rows that an index supplies.
* `batchedIndexScan` does so in batches, each following its own share of the index.

Row numbers are 32-bit words in the arithmetic of slices and batches, and counts 64-bit words.

A slice need not come about (`FilterAnswer`): a choice may ask for an index that is missing, and a
size from the configuration for more room than a vector can have (`hasRoom`).
-/

namespace AdaptiveJoin

/-- How a slice of rows is decided. -/
structure FilterChoice where
  /-- The predicates in the order of their evaluation; missing ones follow in ascending order. -/
  order : List Nat
  /-- The predicate whose index supplies the rows. -/
  indexed : Option Nat
  /-- Whether the choice of an index is passed over. -/
  conjunctive : Bool
  /-- The number of batches, 0 for a slice that is not split. -/
  batches : UInt64
deriving DecidableEq, Repr, Inhabited

/-- The choice before anything is chosen. -/
def FilterChoice.start : FilterChoice := ⟨[], none, false, 0⟩

/-- An index that supplies the rows on which a column equals a constant. -/
structure FilterIndex where
  index : ColumnIndex
  value : Value

/-- The filter of one table, and how far it has come.  Predicates have local numbers, their
positions in `predicates`. -/
structure TableFilter where
  query : Query
  table : Nat
  cardinality : Nat
  predicates : Array Nat
  /-- The index of every predicate that has one. -/
  indexes : Array (Option FilterIndex)
  /-- The first row that is not decided. -/
  cursor : Nat
  /-- The rows that are kept, ascending. -/
  rows : Array Nat
  lookup : Cursor

/-- What a slice has decided: the kept rows and the number of predicates evaluated. -/
structure Slice where
  kept : List Nat
  evaluations : Nat
deriving DecidableEq, Repr, Inhabited

namespace Slice

def empty : Slice := ⟨[], 0⟩

/-- One slice after another. -/
def append (a b : Slice) : Slice := ⟨a.kept ++ b.kept, a.evaluations + b.evaluations⟩

end Slice

/-- What a call of a filter comes to. -/
inductive FilterAnswer where
  /-- A slice is decided, for a reward. -/
  | decided (reward : Float)
  /-- The choice asks for an index that the filter does not have. -/
  | refused
  /-- More room is asked for than a vector can have. -/
  | overflow
deriving Repr, Inhabited

instance (answer : FilterAnswer) : Decidable (answer = .overflow) :=
  match answer with
  | .decided _ => isFalse nofun
  | .refused => isFalse nofun
  | .overflow => isTrue rfl

/-! ### Ranges of rows -/

/-- The quotient of two words rounded up. -/
def ceilDiv (a b : UInt64) : UInt64 := if a % b = 0 then a / b else a / b + 1

/-- The sum of two row numbers, the largest one if it is too large. -/
def addRows (a b : UInt32) : UInt32 := if 0xFFFFFFFF - a < b then 0xFFFFFFFF else a + b

/-- The end of the slice of `budget` rows from a row on. -/
def sliceEnd (start cardinality : UInt32) (budget : UInt64) : UInt32 :=
  (min (start.toUInt64 + budget) cardinality.toUInt64).toUInt32

/-- The number of rows of a batch when a slice is split evenly. -/
def chunkSize (start stop : UInt32) (batches : UInt64) : UInt32 :=
  (max (ceilDiv (stop - start).toUInt64 batches) 1).toUInt32

/-- The rows of a batch, from the first on and below the second. -/
def batchRange (start stop chunk batch : UInt32) : UInt32 × UInt32 :=
  let first := min (addRows start (batch * chunk)) stop
  (first, min (addRows first chunk) stop)

/-- The ranges of rows into which a slice is split. -/
def sliceRanges (start stop : UInt32) (batches : UInt64) : List (UInt32 × UInt32) :=
  if 1 < batches then
    (List.range batches.toUInt32.toNat).map fun batch =>
      batchRange start stop (chunkSize start stop batches) (UInt32.ofNat batch)
  else [(start, stop)]

/-! ### Room for vectors -/

/-- Whether a vector can have room for some members: its size in bytes is a signed 64-bit word. -/
def hasRoom (members bytes : Nat) : Bool := members * bytes < 0x8000000000000000

/-- The bytes of a row number. -/
def rowBytes : Nat := 4

/-- The bytes of what one batch is supplied with: a vector and a flag. -/
def shareBytes : Nat := 32

/-- Whether there is room for the shares of some batches, and in each of them for its quota. -/
def hasRoomForShares (budget batches : UInt64) : Bool :=
  hasRoom batches.toNat shareBytes && hasRoom (ceilDiv budget batches).toNat rowBytes

namespace TableFilter

/-- A filter that has decided no row. -/
def start (query : Query) (table : Nat) (predicates : List Nat)
    (indexes : List (Option FilterIndex)) : TableFilter :=
  { query := query
    table := table
    cardinality := min (query.cardinality table) rowLimit
    predicates := predicates.toArray
    indexes := indexes.toArray
    cursor := 0
    rows := #[]
    lookup := .fresh }

variable (f : TableFilter)

def isFinished : Bool := f.cardinality ≤ f.cursor

/-- The predicates in the order of their evaluation, without the one that an index supplies. -/
def evaluationOrder (choice : FilterChoice) (indexed : Option Nat) : List Nat :=
  let n := f.predicates.size
  let chosen := choice.order.filter fun p => p < n && some p != indexed
  chosen ++ (List.range n).filter fun p => some p != indexed && !chosen.contains p

/-- Evaluates predicates on a tuple until one does not hold.  Answers whether all hold and how many
were evaluated. -/
def evaluateAll (tuple : Tuple) : List Nat → Bool × Nat
  | [] => (true, 0)
  | p :: rest =>
    if f.query.holds (f.predicates[p]?.getD 0) tuple then
      let (all, evaluations) := evaluateAll tuple rest
      (all, evaluations + 1)
    else (false, 1)

/-- Decides a row. -/
def decideRow (order : List Nat) (row : Nat) : Slice :=
  let tuple : Tuple := (Array.replicate f.query.nrTables 0).setIfInBounds f.table row
  let (all, evaluations) := f.evaluateAll tuple order
  ⟨if all then [row] else [], evaluations⟩

/-- Decides some rows in turn. -/
def decideRows (order : List Nat) (rows : List Nat) : Slice :=
  rows.foldr (fun row rest => (f.decideRow order row).append rest) .empty

/-! ### Slices -/

/-- Decides the next `budget` rows.  Answers the slice and the new cursor. -/
def scan (order : List Nat) (budget batches : UInt64) : Slice × Nat :=
  let start := UInt32.ofNat f.cursor
  let stop := sliceEnd start (UInt32.ofNat f.cardinality) budget
  let parts := (sliceRanges start stop batches).map fun (first, last) =>
    f.decideRows order (List.range' first.toNat (last.toNat - first.toNat))
  (parts.foldr Slice.append .empty, stop.toNat)

/-- The rows that an index supplies after a row, `budget` of them at most.  Answers also the last
row, `none` if the index has no further row, and the cursor of the index. -/
def supply (access : FilterIndex) (after : Int) (cursor : Cursor) :
    Nat → List Nat × Option Int × Cursor
  | 0 => ([], some after, cursor)
  | budget + 1 =>
    match access.index.lookupValue access.value after cursor with
    | (some row, cursor) =>
      let (rows, last, cursor) := supply access row cursor budget
      (row :: rows, last, cursor)
    | (none, cursor) => ([], none, cursor)

/-- Decides the next `budget` rows that an index supplies.  Answers the slice, the new cursor and
the cursor of the index. -/
def indexScan (access : FilterIndex) (order : List Nat) (budget : Nat) : Slice × Nat × Cursor :=
  let (rows, last, lookup) := supply access ((f.cursor : Int) - 1) f.lookup budget
  let cursor := match last with
    | some row => (row + 1).toNat
    | none => f.cardinality
  (f.decideRows order rows, cursor, lookup)

/-- The rows that the share of one batch in an index supplies after a row, `quota` of them at most,
and whether the share has no further row. -/
def supplyBatch (access : FilterIndex) (batch batches : Nat) (after : Int) :
    Nat → List Nat × Bool
  | 0 => ([], false)
  | quota + 1 =>
    match access.index.lookupInPartition? access.value after batch batches with
    | some row =>
      let (rows, exhausted) := supplyBatch access batch batches row quota
      (row :: rows, exhausted)
    | none => ([], true)

/-- The row below which all rows of an index have been supplied: no batch that may have further
rows has come beyond its last row. -/
def suppliedBelow (shares : List (List Nat × Bool)) (cardinality : Nat) : Nat :=
  ((shares.filterMap fun (rows, exhausted) =>
    if exhausted then none else rows.getLast?.map (· + 1)).min?).getD cardinality

/-- Decides the next rows that an index supplies, split into batches.  Rows beyond what all batches
have supplied are left for the next slice, so that the decided rows stay contiguous.  A batch has
room for its whole quota from the start, however few rows the index has; `none` if there is none. -/
def batchedIndexScan (access : FilterIndex) (order : List Nat) (budget batches : UInt64) :
    Option (Slice × Nat) :=
  if hasRoomForShares budget batches then
    let quota := (ceilDiv budget batches).toNat
    let n := batches.toNat
    let shares := (List.range n).map fun batch =>
      supplyBatch access batch n ((f.cursor : Int) - 1) quota
    let bound := suppliedBelow shares f.cardinality
    -- The shares of the batches interleave.
    let rows := ((shares.flatMap Prod.fst).filter (· < bound)).mergeSort
    some (f.decideRows order rows, bound)
  else none

/-! ### Calls -/

/-- The share of a slice's decided rows in the sum of these rows and its evaluations, the latter
divided between the batches. -/
def sliceReward (start stop : Nat) (evaluations : Nat) (batches : UInt64) : Float :=
  let decided := (UInt32.ofNat stop - UInt32.ofNat start).toUInt64.toFloat
  safeRatio decided (decided + countToFloat evaluations / batches.toFloat)

/-- Decides a slice as chosen.  Without a slice the filter stays as it is. -/
def execute (budget : UInt64) (choice : FilterChoice) : FilterAnswer × TableFilter :=
  if f.isFinished then (.decided 1, f)
  else
    let budget := max budget 1
    -- Without an index all predicates are evaluated.
    let indexed := if choice.conjunctive then none else choice.indexed
    let order := f.evaluationOrder choice indexed
    let batches := max choice.batches 1
    let done (slice : Slice) (cursor : Nat) (lookup : Cursor) : FilterAnswer × TableFilter :=
      (.decided (sliceReward f.cursor cursor slice.evaluations batches),
        { f with
          cursor := cursor
          rows := f.rows ++ slice.kept.toArray
          lookup := lookup })
    match indexed with
    | none =>
      let (slice, cursor) := f.scan order budget batches
      done slice cursor f.lookup
    | some p =>
      match f.indexes[p]?.join with
      | none => (.refused, f)
      | some access =>
        if 1 < batches then
          match f.batchedIndexScan access order budget batches with
          | some (slice, cursor) => done slice cursor f.lookup
          | none => (.overflow, f)
        else
          let (slice, cursor, lookup) := f.indexScan access order budget.toNat
          done slice cursor lookup

end TableFilter

end AdaptiveJoin
