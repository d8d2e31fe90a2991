import AdaptiveJoin.Index.Catalog
import AdaptiveJoin.Order

/-!
# Plans of join orders

A plan says for every position of an order how rows are found there, by an index lookup or by
running through the table, and which predicates are checked.  A predicate is checked at the
position of the last of its tables.

What happens at a position depends only on the set of the tables joined before it.  `PlanCache`
remembers positions under that set and plans under their order.
-/

namespace AdaptiveJoin

/-- Where an index lookup takes its key from. -/
inductive KeySource where
  /-- The current cell of a column of a table joined before. -/
  | cell (source : ColumnRef) (column : Column)
  /-- The constant of a predicate. -/
  | constant (value : Value)

/-- An index lookup that finds the rows on which a predicate may hold. -/
structure Lookup where
  predicate : Nat
  source : KeySource
  index : ColumnIndex

/-- The first row after `after` that a lookup finds for the tables joined so far. -/
def Lookup.next (l : Lookup) (tuple : Tuple) (after : Int) (cursor : Cursor) :
    Option Nat × Cursor :=
  match l.source with
  | .cell r column => l.index.lookupCell column (tuple.row r.table) after cursor
  | .constant value => l.index.lookupValue value after cursor

/-- How rows are found and checked at one position of an order. -/
structure PositionPlan where
  table : Nat
  lookup : Option Lookup
  /-- The predicates to check, that of the lookup first. -/
  checks : List Nat
deriving Inhabited

/-- What plans are made from. -/
structure Planner where
  query : Query
  catalog : Catalog
  /-- The tables whose rows are filtered before the join. -/
  masked : TableSet
  /-- Whether the rows of the first table are divided between several workers.  Constants are not
  looked up there, because a lookup does not keep to the rows of one worker. -/
  partitioned : Bool
deriving Inhabited

namespace Planner

/-- The lookup that an equi-join offers for a table: its other side is joined already, and its
column on the table has an index of the kind of the other side. -/
def joinLookup? (p : Planner) (joined : TableSet) (table id : Nat) : Option Lookup := do
  let predicate ← p.query.predicates[id]?
  match predicate.shape with
  | .equiJoin left right =>
    let (target, source) ←
      if left.table == table && joined.contains right.table then some (left, right)
      else if right.table == table && joined.contains left.table then some (right, left)
      else none
    let index ← p.catalog.index? target
    let column ← p.query.column? source
    if column.kind = index.kind then some ⟨id, .cell source column, index⟩ else none
  | _ => none

/-- The lookup that an equality with a constant offers for a table: the column has an index, and
the constant has a key in it. -/
def constantLookup? (p : Planner) (table id : Nat) : Option Lookup := do
  let predicate ← p.query.predicates[id]?
  match predicate.shape with
  | .constantEquality column value =>
    if column.table ≠ table then none
    else
      let index ← p.catalog.index? column
      if index.accepts value then some ⟨id, .constant value, index⟩ else none
  | _ => none

/-- The lookup at a position: the first equi-join that offers one, else the first equality with a
constant that does. -/
def lookup? (p : Planner) (joined : TableSet) (table : Nat) : Option Lookup :=
  let ids := List.range p.query.predicates.size
  -- Nothing is joined before the first table, so no equi-join has its other side.
  let byJoin :=
    if joined.isEmpty then none else ids.findSome? (p.joinLookup? joined table)
  byJoin.or <|
    if joined.isEmpty && p.partitioned then none else ids.findSome? (p.constantLookup? table)

/-- Whether a predicate is checked when a table joins others: the table is the last of its tables,
and it has not been decided by filtering the table. -/
def isChecked (p : Planner) (joined : TableSet) (table : Nat) (predicate : Predicate) : Bool :=
  predicate.references table &&
    (TableSet.ofList predicate.tables).isSubset (joined.insert table) &&
    !(predicate.isUnary && p.masked.contains table)

/-- The plan of the position at which a table joins others. -/
def position (p : Planner) (joined : TableSet) (table : Nat) : PositionPlan :=
  let lookup := p.lookup? joined table
  -- The lookup may find rows on which its predicate does not hold, so it is checked as well.
  let first := lookup.map Lookup.predicate
  let others := (List.range p.query.predicates.size).filter fun id =>
    first != some id && (p.query.predicates[id]?.map (p.isChecked joined table)).getD false
  ⟨table, lookup, first.toList ++ others⟩

/-- The plan of every position when some tables join others in turn. -/
def positionsFrom (p : Planner) (joined : TableSet) : List Nat → List PositionPlan
  | [] => []
  | table :: rest => p.position joined table :: p.positionsFrom (joined.insert table) rest

end Planner

/-- The plan of an order: the plans of its positions. -/
structure Plan where
  order : JoinOrder
  positions : Array PositionPlan
deriving Inhabited

/-- The plan at a position. -/
def Plan.position? (p : Plan) (position : Nat) : Option PositionPlan := p.positions[position]?

/-- The plan of an order. -/
def Planner.plan (p : Planner) (order : JoinOrder) : Plan :=
  ⟨order, (p.positionsFrom ∅ order.toList).toArray⟩

/-! ### Remembered plans -/

/-- The plans made so far, and the plans of positions by the set of tables joined before. -/
structure PlanCache where
  planner : Planner
  positions : Std.HashMap (TableSet × Nat) PositionPlan
  plans : Std.HashMap JoinOrder Plan

namespace PlanCache

def empty (planner : Planner) : PlanCache := ⟨planner, ∅, ∅⟩

instance : Inhabited PlanCache := ⟨empty default⟩

def nrPlans (c : PlanCache) : Nat := c.plans.size

def nrPositions (c : PlanCache) : Nat := c.positions.size

/-- The plan of a position, made on first use. -/
def position (c : PlanCache) (joined : TableSet) (table : Nat) : PositionPlan × PlanCache :=
  match c.positions[(joined, table)]? with
  | some plan => (plan, c)
  | none =>
    let plan := c.planner.position joined table
    (plan, { c with positions := c.positions.insert (joined, table) plan })

/-- The plans of the positions when some tables join others in turn. -/
def positionsFrom (c : PlanCache) (joined : TableSet) :
    List Nat → List PositionPlan × PlanCache
  | [] => ([], c)
  | table :: rest =>
    let (plan, c) := c.position joined table
    let (plans, c) := positionsFrom c (joined.insert table) rest
    (plan :: plans, c)

/-- The plan of an order, made on first use. -/
def plan (c : PlanCache) (order : JoinOrder) : Plan × PlanCache :=
  match c.plans[order]? with
  | some plan => (plan, c)
  | none =>
    let (positions, c) := c.positionsFrom ∅ order.toList
    let plan : Plan := ⟨order, positions.toArray⟩
    (plan, { c with plans := c.plans.insert order plan })

end PlanCache

end AdaptiveJoin
