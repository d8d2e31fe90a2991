import AdaptiveJoin.Predicate

/-!
# Join queries

A query joins some tables under some predicates.  It keeps, for every table, the set of the tables
that some predicate connects it with, so that a search can follow the join graph without looking
at the predicates again.

Predicates are added one at a time; one that is rejected leaves the query as it was.
-/

namespace AdaptiveJoin

/-- The tables of a join, its predicates and its join graph. -/
structure Query where
  tables : Array Table
  predicates : Array Predicate
  /-- The tables that are intermediate results rather than base tables. -/
  temporary : TableSet
  /-- The neighbours of every table in the join graph. -/
  graph : Array TableSet
deriving Inhabited

namespace Query

/-- The query without predicates. -/
def ofTables (tables : Array Table) : Query :=
  ⟨tables, #[], ∅, Array.replicate tables.size ∅⟩

def nrTables (q : Query) : Nat := q.tables.size

/-- The number of rows of a table. -/
def cardinality (q : Query) (table : Nat) : Nat :=
  (q.tables[table]?.map Table.cardinality).getD 0

/-- The column that a reference names. -/
def column? (q : Query) (r : ColumnRef) : Option Column :=
  q.tables[r.table]?.bind fun t => t.columns[r.column]?

/-! ### Building -/

/-- Connects every two of some tables. -/
def connect (graph : Array TableSet) (tables : List Nat) : Array TableSet :=
  tables.foldl
    (fun g t => g.modify t fun s => s.union ((TableSet.ofList tables).erase t)) graph

/-- Adds a predicate and answers its number.  A predicate that refers to a table beyond the query
or beyond the limit on tables is rejected. -/
def addPredicate (q : Query) (p : Predicate) : Except Rejection (Query × Nat) :=
  match p.tables.find? (fun t => q.nrTables ≤ t) with
  | some t => .error (.foreignTable p.label t)
  | none =>
    match p.tables.find? (fun t => maxTables ≤ t) with
    | some t => .error (.tableBeyondLimit p.label t)
    | none =>
      .ok ({ q with predicates := q.predicates.push p, graph := connect q.graph p.tables },
        q.predicates.size)

/-- Adds the equality of two columns. -/
def addEquiJoin (q : Query) (left right : ColumnRef) : Except Rejection (Query × Nat) := do
  q.addPredicate (← Predicate.compareColumns q.tables left .eq right)

/-- Adds a comparison of two columns. -/
def addColumnComparison (q : Query) (left : ColumnRef) (op : Comparison) (right : ColumnRef) :
    Except Rejection (Query × Nat) := do
  q.addPredicate (← Predicate.compareColumns q.tables left op right)

/-- Adds a comparison of a column with a constant. -/
def addConstantFilter (q : Query) (column : ColumnRef) (op : Comparison) (value : Value) :
    Except Rejection (Query × Nat) := do
  q.addPredicate (← Predicate.compareConstant q.tables column op value)

/-- Marks a table as an intermediate result. -/
def markTemporary (q : Query) (table : Nat) : Query :=
  { q with temporary := q.temporary.insert table }

/-! ### Reading -/

/-- The reference of a column that is given by names. -/
def columnRef? (q : Query) (table column : String) : Option ColumnRef := do
  let t ← q.tables.findIdx? fun t => t.name == table
  let c ← (← q.tables[t]?).columnIndex? column
  return ⟨t, c⟩

/-- Whether a predicate holds of a tuple; a number that names no predicate holds of none. -/
def holds (q : Query) (predicate : Nat) (tuple : Tuple) : Bool :=
  match q.predicates[predicate]? with
  | some p => p.eval tuple == .holds
  | none => false

/-- The numbers of the predicates that only a given table decides, ascending. -/
def unaryPredicates (q : Query) (table : Nat) : List Nat :=
  (List.range q.predicates.size).filter fun id =>
    (q.predicates[id]?.map fun p => p.tables == [table]).getD false

def isTemporary (q : Query) (table : Nat) : Bool := q.temporary.contains table

/-- The tables that share a predicate with a table. -/
def neighbours (q : Query) (table : Nat) : TableSet := q.graph[table]?.getD ∅

/-- Whether a predicate connects a table with one of the tables joined so far. -/
def isConnected (q : Query) (table : Nat) (joined : TableSet) : Bool :=
  (q.neighbours table).intersects joined

end Query

end AdaptiveJoin
