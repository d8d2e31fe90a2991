import AdaptiveJoin.Episode.Task

/-!
# The nested loops of one episode

An episode runs the nested loops of one order for a limited number of steps, a step being the
evaluation of the predicates at one position.  The loops visit the rows of the outermost table that
belong to the worker's share, and at deeper positions all rows that are not yet joined completely
according to a snapshot of the progress.

* `seek` moves a position to its first candidate at or after its current row, `step` to the next.
* `proposeNext` is what an odometer does: it steps, and moves on to the outer position when a
  position runs out.
* `resume` brings a saved tuple back into range, `advance` runs the loops.
-/

namespace AdaptiveJoin

/-- What the loops of one episode read. -/
structure Episode where
  task : Task
  order : JoinOrder
  plan : Plan
  cardinalities : Array Nat
  snapshot : Snapshot
  worker : Nat
  workers : Nat

/-- The state of the loops. -/
structure Walk where
  /-- The current row of every table. -/
  tuple : Tuple
  /-- Per table, where its last index lookup ended. -/
  cursors : Array Cursor
  /-- The result tuples found, in this order. -/
  emitted : Array Tuple
  /-- The number of steps spent. -/
  steps : Nat
deriving Inhabited

namespace Walk

/-- The current row of a table. -/
def row (w : Walk) (table : Nat) : Nat := w.tuple.row table

/-- Moves a table to a row. -/
def setRow (w : Walk) (table row : Nat) : Walk :=
  { w with tuple := w.tuple.setIfInBounds table row }

/-- Moves some tables to their first row. -/
def resetRows (w : Walk) (tables : List Nat) : Walk :=
  { w with tuple := tables.foldl (fun t table => t.setIfInBounds table 0) w.tuple }

end Walk

namespace Episode

variable (e : Episode)

/-- The position of the innermost loop. -/
def last : Nat := e.order.size - 1

/-- The table at a position. -/
def tableAt (pos : Nat) : Nat := e.order.tableAt pos

/-- The number of rows of a table. -/
def cardinality (table : Nat) : Nat := e.cardinalities[table]?.getD 0

/-- The tables behind a position. -/
def deeper (pos : Nat) : List Nat := e.order.toList.drop (pos + 1)

/-- The index lookup at a position. -/
def lookup? (pos : Nat) : Option Lookup := (e.plan.position? pos).bind PositionPlan.lookup

/-- The predicates to check at a position. -/
def checks (pos : Nat) : List Nat := ((e.plan.position? pos).map PositionPlan.checks).getD []

/-! ### Candidates -/

/-- A row below which no row is visited at a position. -/
def lowerBound (pos : Nat) : Nat :=
  if pos = 0 then e.snapshot.shareOffset (e.tableAt pos) e.worker
  else e.snapshot.leastOffset (e.tableAt pos)

/-- The first row of the worker's share at or after a row. -/
def alignToShare (row : Nat) : Nat :=
  row + (e.worker + e.workers - row % e.workers) % e.workers

/-- Moves a table to the first row after `after` that a lookup finds, or behind its last row. -/
def lookUp (l : Lookup) (table : Nat) (after : Int) (w : Walk) : Walk :=
  let (row?, cursor) := l.next w.tuple after (w.cursors[table]?.getD .fresh)
  { w.setRow table (row?.getD (e.cardinality table)) with
    cursors := w.cursors.setIfInBounds table cursor }

/-- Passes over candidates that are joined completely.  Every round moves to a later row, so as many
rounds as there are rows are enough. -/
def skipCovered (pos : Nat) : Nat → Walk → Walk
  | 0, w => w
  | rounds + 1, w =>
    let table := e.tableAt pos
    let row := w.row table
    if row < e.cardinality table && e.snapshot.covers table row then
      skipCovered pos rounds <|
        match e.lookup? pos with
        | some l => e.lookUp l table row w
        | none => w.setRow table (row + 1)
    else w

/-- Passes over candidates that are joined completely, except at the outermost position, where the
offset of the share has taken care of them. -/
def skipJoined (pos : Nat) (w : Walk) : Walk :=
  if pos = 0 then w else e.skipCovered pos (e.cardinality (e.tableAt pos)) w

/-- Moves a position to its first candidate at or after its current row, or behind the last row. -/
def seek (pos : Nat) (w : Walk) : Walk :=
  let table := e.tableAt pos
  let cardinality := e.cardinality table
  let bounded := max (w.row table) (e.lowerBound pos)
  let row := if pos = 0 then min (e.alignToShare bounded) cardinality else bounded
  e.skipJoined pos <|
    if row < cardinality then
      -- A lookup finds rows after a given one; here `row` itself is a candidate.
      match e.lookup? pos with
      | some l => e.lookUp l table ((row : Int) - 1) w
      | none => w.setRow table row
    else w.setRow table cardinality

/-- Moves a position to its next candidate, or behind the last row. -/
def step (pos : Nat) (w : Walk) : Walk :=
  let table := e.tableAt pos
  let cardinality := e.cardinality table
  let row := w.row table
  e.skipJoined pos <|
    match e.lookup? pos with
    | some l => e.lookUp l table row w
    | none =>
      -- The rows of a share are `workers` apart.
      w.setRow table (min (if pos = 0 then row + e.workers else row + 1) cardinality)

/-- Whether the row at a position extends the rows before it: it is not joined completely, it has
passed the filter of its table, and the predicates at the position hold. -/
def accepts (pos : Nat) (w : Walk) : Bool :=
  let table := e.tableAt pos
  let row := w.row table
  !(0 < pos && e.snapshot.covers table row) &&
    (match e.task.mask? table with
      | some mask => mask[row]?.getD false
      | none => true) &&
    (e.checks pos).all fun id => e.task.query.holds id w.tuple

/-! ### Moving on -/

/-- Whether a position has run out of rows. -/
def isExhausted (pos : Nat) (w : Walk) : Bool :=
  e.cardinality (e.tableAt pos) ≤ w.row (e.tableAt pos)

/-- Moves a position to its next candidate; the deeper positions start from their first row.  A
position that runs out returns to its first row and the position outside moves on.  Answers the
position that has moved, `none` once the outermost one has run out. -/
def proposeNext : Nat → Walk → Option Nat × Walk
  | pos, w =>
    let w := e.step pos w
    if !e.isExhausted pos w then (some pos, w.resetRows (e.deeper pos))
    else
      match pos with
      | 0 => (none, w)
      | outer + 1 => proposeNext outer (w.setRow (e.tableAt (outer + 1)) 0)

/-- Leaves a position that has run out of rows. -/
def leave (pos : Nat) (w : Walk) : Option Nat × Walk :=
  match pos with
  | 0 => (none, w)
  | outer + 1 => e.proposeNext outer (w.setRow (e.tableAt (outer + 1)) 0)

/-- Brings the rows of the tables from a position on back into range; `rest` positions are left.
When a row changes, the deeper positions start from their first row.  Answers the first position
whose row has to be checked, `none` if the outermost one has run out. -/
def resumeFrom (pos : Nat) : Nat → Walk → Option Nat × Walk
  | 0, w => (some e.last, w)
  | rest + 1, w =>
    let table := e.tableAt pos
    let sought := e.seek pos w
    -- Rows saved behind another row of this table say nothing about the row sought.
    let w := if sought.row table = w.row table then sought else sought.resetRows (e.deeper pos)
    if e.isExhausted pos w then e.leave pos w
    else if rest = 0 || !e.accepts pos w then (some pos, w)
    else resumeFrom (pos + 1) rest w

/-- Brings a saved tuple back into range. -/
def resume (w : Walk) : Option Nat × Walk := e.resumeFrom 0 e.order.size w

/-- One step at a position that has a row: checks it, and moves on.  A row that passes at the
innermost position completes a result. -/
def visit (pos : Nat) (w : Walk) : Option Nat × Walk :=
  let w := { w with steps := w.steps + 1 }
  if !e.accepts pos w then e.proposeNext pos w
  else if pos = e.last then e.proposeNext pos { w with emitted := w.emitted.push w.tuple }
  else (some (pos + 1), e.seek (pos + 1) w)

/-- Runs the loops from a position for at most `budget` steps. -/
def advance : Nat → Option Nat × Walk → Option Nat × Walk
  | budget + 1, (some pos, w) =>
    -- Leaving positions that have run out costs no step.
    let settled := if e.isExhausted pos w then e.leave pos w else (some pos, w)
    match settled with
    | (none, w) => (none, w)
    | (some pos, w) => advance budget (e.visit pos w)
  | _, done => done

/-- Runs the loops from a saved tuple.  Once the order is exhausted, the outermost table stands
behind its last row. -/
def run (start : Tuple) (cursors : Array Cursor) : Option Nat × Walk :=
  match e.advance e.task.budget (e.resume ⟨start, cursors, #[], 0⟩) with
  | (none, w) => (none, w.setRow e.order.leftmost (e.cardinality e.order.leftmost))
  | (some pos, w) => (some pos, w)

end Episode

end AdaptiveJoin
