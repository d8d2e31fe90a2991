import AdaptiveJoin.Predicate

/-!
# Join orders and checkpoints

A join order lists tables from the outermost loop to the innermost one.  A checkpoint says how far
the nested loops of an order have come.  `Checkpoint.isAheadOf` compares two checkpoints of one
order.
-/

namespace AdaptiveJoin

/-- The tables of a join, the outermost loop first. -/
structure JoinOrder where
  tables : Array Nat
deriving DecidableEq, Hashable, Repr, Inhabited

namespace JoinOrder

def ofList (tables : List Nat) : JoinOrder := ⟨tables.toArray⟩

def toList (o : JoinOrder) : List Nat := o.tables.toList

def size (o : JoinOrder) : Nat := o.tables.size

def isEmpty (o : JoinOrder) : Bool := o.tables.isEmpty

/-- The table at a position; 0 beyond the end. -/
def tableAt (o : JoinOrder) (position : Nat) : Nat := o.tables[position]?.getD 0

/-- The outermost table, whose rows are divided between the workers. -/
def leftmost (o : JoinOrder) : Nat := o.tableAt 0

/-- The first position of a table. -/
def positionOf? (o : JoinOrder) (table : Nat) : Option Nat := o.tables.findIdx? (· == table)

end JoinOrder

/-- Lexicographic order of two lists of numbers. -/
def compareLex : List Nat → List Nat → Ordering
  | [], [] => .eq
  | [], _ :: _ => .lt
  | _ :: _, [] => .gt
  | a :: as, b :: bs => (compare a b).then (compareLex as bs)

/-- The order of two join orders, by their lists of tables. -/
def JoinOrder.compare (a b : JoinOrder) : Ordering := compareLex a.toList b.toList

/-- How far the nested loops of an order have come. -/
structure Checkpoint where
  /-- The current row of every table. -/
  tuple : Tuple
  /-- The position at which the loops go on, -1 once the order is exhausted. -/
  joinIndex : Int
  /-- Whether the loops are over. -/
  finished : Bool
deriving DecidableEq, Repr, Inhabited

namespace Checkpoint

/-- The start of the loops over some tables. -/
def start (nrTables : Nat) : Checkpoint := ⟨Array.replicate nrTables 0, 0, false⟩

/-- The rows of a checkpoint from the outermost loop to the innermost one. -/
def rows (c : Checkpoint) (order : JoinOrder) : List Nat := order.toList.map c.tuple.row

/-- Whether a checkpoint lies strictly after another one in the loops of an order: the end lies
after all others, and else the rows decide, the outermost first. -/
def isAheadOf (a b : Checkpoint) (order : JoinOrder) : Bool :=
  if a.finished != b.finished then a.finished
  else compareLex (a.rows order) (b.rows order) == .gt

end Checkpoint

end AdaptiveJoin
