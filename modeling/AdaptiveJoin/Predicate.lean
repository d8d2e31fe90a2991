import AdaptiveJoin.Table
import AdaptiveJoin.TableSet

/-!
# Predicates over tuples

A tuple holds one row number per table of a query.  A predicate evaluates a tuple to one of three
truth values and names the tables whose rows it reads.  Comparisons of columns and constants are
built by `Predicate.compareColumns` and `Predicate.compareConstant`; equalities among them are
classified (`Predicate.Shape`), because an index can answer them.
-/

namespace AdaptiveJoin

/-- One row number per table of a query. -/
abbrev Tuple := Array Nat

/-- The row of a table in a tuple. -/
def Tuple.row (tuple : Tuple) (table : Nat) : Nat := tuple[table]?.getD 0

/-! ### Comparisons -/

/-- The outcome of a predicate.  A comparison that involves a null, or scalars that do not compare,
is unknown. -/
inductive Truth where
  | holds
  | fails
  | unknown
deriving DecidableEq, Repr, Inhabited

/-- The comparison operators. -/
inductive Comparison where
  | eq
  | ne
  | lt
  | le
  | gt
  | ge
deriving DecidableEq, Repr, Inhabited

namespace Comparison

/-- Whether an operator is satisfied by an order. -/
def admits : Comparison → Ordering → Bool
  | eq, o => o == .eq
  | ne, o => o != .eq
  | lt, o => o == .lt
  | le, o => o != .gt
  | gt, o => o == .gt
  | ge, o => o != .lt

def symbol : Comparison → String
  | eq => "="
  | ne => "<>"
  | lt => "<"
  | le => "<="
  | gt => ">"
  | ge => ">="

/-- The truth of a comparison whose sides are ordered like this, if at all. -/
def truth (op : Comparison) : Option Ordering → Truth
  | some o => if op.admits o then .holds else .fails
  | none => .unknown

end Comparison

/-! ### Predicates -/

/-- A column, by the position of its table in the query and its position in that table. -/
structure ColumnRef where
  table : Nat
  column : Nat
deriving DecidableEq, Hashable, Repr, Inhabited

/-- What an index can do for a predicate. -/
inductive Predicate.Shape where
  /-- The cells of two columns are equal: an index over one serves the cells of the other. -/
  | equiJoin (left right : ColumnRef)
  /-- The cell of a column equals a constant: an index over the column serves the constant. -/
  | constantEquality (column : ColumnRef) (value : Value)
  /-- Only evaluation decides the predicate. -/
  | residual

/-- A predicate: a label, the tables whose rows it reads, and its evaluation on tuples. -/
structure Predicate where
  label : String
  /-- The tables that the predicate refers to, each once. -/
  tables : List Nat
  shape : Predicate.Shape
  eval : Tuple → Truth
  ascending : tables.Pairwise (· < ·)

/-- Adds a table to an ascending list of tables. -/
def insertAscending (t : Nat) : List Nat → List Nat
  | [] => [t]
  | u :: us =>
    if t < u then t :: u :: us
    else if t = u then u :: us
    else u :: insertAscending t us

theorem mem_insertAscending {x t : Nat} {us : List Nat} :
    x ∈ insertAscending t us ↔ x = t ∨ x ∈ us := by
  induction us with
  | nil => simp [insertAscending]
  | cons u us ih =>
    simp only [insertAscending]
    split
    · simp
    · split
      · rename_i h; subst h; simp
      · simp only [List.mem_cons, ih]
        constructor
        · rintro (h | h | h) <;> simp [h]
        · rintro (h | h | h) <;> simp [h]

theorem pairwise_insertAscending {t : Nat} {us : List Nat} (h : us.Pairwise (· < ·)) :
    (insertAscending t us).Pairwise (· < ·) := by
  induction us with
  | nil => simp [insertAscending]
  | cons u us ih =>
    have hu := List.pairwise_cons.1 h
    simp only [insertAscending]
    split
    · rename_i htu
      refine List.pairwise_cons.2 ⟨fun x hx => ?_, h⟩
      rcases List.mem_cons.1 hx with rfl | hx
      · exact htu
      · exact Nat.lt_trans htu (hu.1 x hx)
    · split
      · exact h
      · refine List.pairwise_cons.2 ⟨fun x hx => ?_, ih hu.2⟩
        rcases mem_insertAscending.1 hx with rfl | hx
        · omega
        · exact hu.1 x hx

/-- The members of a list in ascending order, each once. -/
def sortDistinct (tables : List Nat) : List Nat := tables.foldr insertAscending []

theorem mem_sortDistinct {x : Nat} {tables : List Nat} : x ∈ sortDistinct tables ↔ x ∈ tables := by
  induction tables with
  | nil => simp [sortDistinct]
  | cons t ts ih =>
    have : sortDistinct (t :: ts) = insertAscending t (sortDistinct ts) := rfl
    rw [this, mem_insertAscending, ih, List.mem_cons]

theorem pairwise_sortDistinct (tables : List Nat) : (sortDistinct tables).Pairwise (· < ·) := by
  induction tables with
  | nil => simp [sortDistinct]
  | cons t ts ih => exact pairwise_insertAscending ih

/-- What makes a reference or a predicate unusable in a query. -/
inductive Rejection where
  /-- A column reference names no table. -/
  | unknownTable (table : Nat)
  /-- A column reference names no column of its table. -/
  | unknownColumn (column : Nat) (table : String)
  /-- A predicate refers to a table that the query does not have. -/
  | foreignTable (predicate : String) (table : Nat)
  /-- A predicate refers to a table whose number is too large for a join. -/
  | tableBeyondLimit (predicate : String) (table : Nat)
deriving DecidableEq, Repr

def Rejection.message : Rejection → String
  | unknownTable t => "Unknown table #" ++ toString t
  | unknownColumn c t => "Unknown column #" ++ toString c ++ " in table '" ++ t ++ "'"
  | foreignTable p t => "Predicate '" ++ p ++ "' references unknown table #" ++ toString t
  | tableBeyondLimit p t =>
    "Predicate '" ++ p ++ "' references table #" ++ toString t ++
      ", joins are limited to " ++ toString maxTables ++ " tables"

/-- The table and the column that a reference names. -/
def ColumnRef.resolve (r : ColumnRef) (tables : Array Table) :
    Except Rejection (Table × Column) :=
  match tables[r.table]? with
  | none => .error (.unknownTable r.table)
  | some t =>
    match t.columns[r.column]? with
    | none => .error (.unknownColumn r.column t.name)
    | some c => .ok (t, c)

namespace Predicate

/-- A predicate over tables that are listed in any order and any number of times. -/
def ofTables (label : String) (tables : List Nat) (shape : Shape) (eval : Tuple → Truth) :
    Predicate :=
  ⟨label, sortDistinct tables, shape, eval, pairwise_sortDistinct tables⟩

/-- A predicate that only evaluation decides. -/
def custom (label : String) (tables : List Nat) (eval : Tuple → Truth) : Predicate :=
  ofTables label tables .residual eval

/-- Compares the cells of two columns.  An equality across two tables is an equi-join. -/
def compareColumns (tables : Array Table) (left : ColumnRef) (op : Comparison)
    (right : ColumnRef) : Except Rejection Predicate := do
  let (leftTable, leftColumn) ← left.resolve tables
  let (rightTable, rightColumn) ← right.resolve tables
  let label := leftTable.name ++ "." ++ leftColumn.name ++ " " ++ op.symbol ++ " " ++
    rightTable.name ++ "." ++ rightColumn.name
  let shape := if op = .eq ∧ left.table ≠ right.table then .equiJoin left right else .residual
  return ofTables label [left.table, right.table] shape fun tuple =>
    op.truth (leftColumn.compareCells (tuple.row left.table) rightColumn (tuple.row right.table))

/-- Compares the cells of a column with a constant. -/
def compareConstant (tables : Array Table) (column : ColumnRef) (op : Comparison)
    (value : Value) : Except Rejection Predicate := do
  let (table, cells) ← column.resolve tables
  let label := table.name ++ "." ++ cells.name ++ " " ++ op.symbol ++ " " ++ value.render
  let shape := if op = .eq then .constantEquality column value else .residual
  return ofTables label [column.table] shape fun tuple =>
    op.truth (cells.compareValue (tuple.row column.table) value)

/-- Whether a single table decides the predicate. -/
def isUnary (p : Predicate) : Bool := p.tables.length == 1

/-- Whether the predicate refers to a table. -/
def references (p : Predicate) (table : Nat) : Bool := p.tables.contains table

end Predicate

end AdaptiveJoin
