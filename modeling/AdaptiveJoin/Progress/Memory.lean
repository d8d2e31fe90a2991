import AdaptiveJoin.Order
import AdaptiveJoin.Progress.Offsets
import Std.Data.HashMap

/-!
# What a worker remembers of its orders

A worker remembers the checkpoint of every order that it has run, and for every initial part of
these orders the rows that some order with this initial part has reached.  An order goes on from the
furthest checkpoint that its own runs or its initial parts offer (`Memory.continueFrom`).
-/

namespace AdaptiveJoin

/-- The checkpoints of the orders of one worker and the rows reached on their initial parts. -/
structure Memory where
  worker : Nat
  states : Std.HashMap JoinOrder Checkpoint
  /-- The rows reached, by initial part. -/
  paths : Std.HashMap (List Nat) (List Nat)

namespace Memory

/-- The memory of a worker that has run nothing. -/
def start (worker : Nat) : Memory := ⟨worker, ∅, ∅⟩

instance : Inhabited Memory := ⟨start 0⟩

/-- The number of orders that the worker has run. -/
def nrStates (m : Memory) : Nat := m.states.size

/-! ### Going on -/

/-- The checkpoint of an order whose first tables have reached some rows, the others being at their
first row.  The loops are over if the outermost table has no row left. -/
def checkpointAt (progress : Progress) (tables rows : List Nat) : Checkpoint :=
  let done := progress.cardinality (tables.headD 0) ≤ rows.headD 0
  let origin : Tuple := Array.replicate progress.nrTables 0
  { tuple := (tables.zip rows).foldl (fun t (table, row) => t.setIfInBounds table row) origin
    joinIndex := if done then -1 else (tables.length : Int) - 1
    finished := done }

/-- The checkpoint that the first `n` tables of an order offer. -/
def checkpointOn? (m : Memory) (progress : Progress) (order : JoinOrder) (n : Nat) :
    Option Checkpoint :=
  let path := order.toList.take n
  m.paths[path]?.map (checkpointAt progress path)

/-- The checkpoint from which an order goes on: that of its own last run, or the start, unless an
initial part offers one that is further ahead.  Longer initial parts come first. -/
def continueFrom (m : Memory) (progress : Progress) (order : JoinOrder) : Checkpoint :=
  let own := m.states[order]?.getD (.start progress.nrTables)
  -- The whole order and the empty part of it are no initial parts.
  let lengths := ((List.range order.size).drop 1).reverse
  lengths.foldl (fun best n =>
    match m.checkpointOn? progress order n with
    | some c => if c.isAheadOf best order then c else best
    | none => best) own

/-! ### Remembering -/

/-- Remembers the checkpoint of an order unless the one remembered is further ahead. -/
def recordState (m : Memory) (order : JoinOrder) (c : Checkpoint) : Memory :=
  match m.states[order]? with
  | some old =>
    if old.isAheadOf c order then m else { m with states := m.states.insert order c }
  | none => { m with states := m.states.insert order c }

/-- Remembers the rows reached on an initial part unless the rows remembered are at least as far
ahead. -/
def recordPath (m : Memory) (path rows : List Nat) : Memory :=
  match m.paths[path]? with
  | some old =>
    if compareLex rows old == .gt then { m with paths := m.paths.insert path rows } else m
  | none => { m with paths := m.paths.insert path rows }

/-- Remembers where an order has come to. -/
def record (m : Memory) (order : JoinOrder) (c : Checkpoint) : Memory :=
  let rows := c.rows order
  ((List.range order.size).drop 1).foldl
    (fun m n => m.recordPath (order.toList.take n) (rows.take n)) (m.recordState order c)

/-- Remembers where an order has come to, and raises the offset of the worker's share of the
outermost table accordingly. -/
def update (m : Memory) (progress : Progress) (order : JoinOrder) (c : Checkpoint) :
    Memory × Progress :=
  -- The rows of the share before the current row are joined completely, the current one is not.
  let table := order.leftmost
  let offset := if c.finished then progress.cardinality table else c.tuple.row table
  (m.record order c, (progress.publish table m.worker offset).2)

end Memory

end AdaptiveJoin
