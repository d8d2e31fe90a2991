import AdaptiveJoin.Index.Basic

/-!
# The indexes of a query

A catalog holds indexes by the columns that they stand for.  `Catalog.forQuery` indexes every column
whose index could answer an equality of the query.
-/

namespace AdaptiveJoin

/-- Indexes by column. -/
structure Catalog where
  indexes : Std.HashMap ColumnRef ColumnIndex

namespace Catalog

def empty : Catalog := ⟨∅⟩

instance : Inhabited Catalog := ⟨empty⟩

/-- Registers an index for a column, in place of an earlier one. -/
def insert (c : Catalog) (r : ColumnRef) (ix : ColumnIndex) : Catalog :=
  ⟨c.indexes.insert r ix⟩

/-- The index of a column. -/
def index? (c : Catalog) (r : ColumnRef) : Option ColumnIndex := c.indexes[r]?

def contains (c : Catalog) (r : ColumnRef) : Bool := c.indexes.contains r

def size (c : Catalog) : Nat := c.indexes.size

def isEmpty (c : Catalog) : Bool := c.indexes.isEmpty

/-- Adds the index of a column; a reference that names no column is passed over. -/
def addColumn (q : Query) (c : Catalog) (r : ColumnRef) : Except IndexError Catalog :=
  match q.column? r with
  | some column => (ColumnIndex.ofColumn column).map (c.insert r)
  | none => .ok c

/-- The indexes over some columns of a query. -/
def ofColumns (q : Query) (columns : List ColumnRef) : Except IndexError Catalog :=
  columns.foldlM (addColumn q) empty

/-- The indexes over both sides of the equi-joins of a query and over the columns that it equates
with constants. -/
def forQuery (q : Query) : Except IndexError Catalog :=
  ofColumns q (q.predicates.toList.flatMap fun p => p.shape.columns).eraseDups

end Catalog

end AdaptiveJoin
