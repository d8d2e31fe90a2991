import AdaptiveJoin.Query.Basic

/-!
# Queries that can be executed

`Query.validate` checks what the execution of a join relies on: the number and the sizes of the
tables, and that the tables and columns named by predicates exist.  The first fault is reported.
-/

namespace AdaptiveJoin

/-- The smallest number of rows that is too large for a table: row numbers stay below it, so it can
stand for the absence of a row. -/
def rowLimit : Nat := 0xFFFFFFFF

/-- A fault of a query. -/
inductive QueryError where
  | noTables
  | tooManyTables (tables : Nat)
  | tableTooLarge (table : String) (rows : Nat)
  | unboundPredicate (predicate : String)
  | unknownTable (predicate : String) (table : Nat)
  | unknownColumn (predicate : String) (table column : Nat)
deriving DecidableEq, Repr

def QueryError.message : QueryError → String
  | noTables => "query joins no tables"
  | tooManyTables n =>
    "query joins " ++ toString n ++ " tables, at most " ++ toString maxTables ++ " are supported"
  | tableTooLarge t n =>
    "table '" ++ t ++ "' has " ++ toString n ++ " rows, more than a row index can address"
  | unboundPredicate p => "predicate '" ++ p ++ "' references no table"
  | unknownTable p t => "predicate '" ++ p ++ "' references unknown table #" ++ toString t
  | unknownColumn p t c =>
    "predicate '" ++ p ++ "' references unknown column #" ++ toString c ++ " of table #" ++
      toString t

/-- The columns that the shape of a predicate names. -/
def Predicate.Shape.columns : Predicate.Shape → List ColumnRef
  | .equiJoin left right => [left, right]
  | .constantEquality column _ => [column]
  | .residual => []

namespace Query

/-- The fault of a predicate, if any: it has to refer to tables, and to tables and columns of the
query only. -/
def predicateFault? (q : Query) (p : Predicate) : Option QueryError :=
  if p.tables.isEmpty then some (.unboundPredicate p.label)
  else
    match p.tables.find? (fun t => q.nrTables ≤ t) with
    | some t => some (.unknownTable p.label t)
    | none =>
      (p.shape.columns.find? fun c => (q.column? c).isNone).map fun c =>
        .unknownColumn p.label c.table c.column

/-- Accepts the queries that can be executed. -/
def validate (q : Query) : Except QueryError Unit :=
  if q.nrTables = 0 then .error .noTables
  else if maxTables < q.nrTables then .error (.tooManyTables q.nrTables)
  else
    match q.tables.find? (fun t => rowLimit ≤ t.cardinality) with
    | some t => .error (.tableTooLarge t.name t.cardinality)
    | none =>
      match q.predicates.findSome? q.predicateFault? with
      | some e => .error e
      | none => .ok ()

end Query

end AdaptiveJoin
