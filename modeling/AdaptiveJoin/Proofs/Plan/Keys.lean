import AdaptiveJoin.Proofs.Index.Checked
import AdaptiveJoin.Proofs.Plan.Lookups

/-!
# The keys that planned lookups ask for

A lookup asks for a key: that of the cell at which it looks, or that of its constant
(`Lookup.key?`).  It stands for the column that its predicate names on the table
(`Query.target?`), and runs through the rows of this column that have the key.

`Planner.lists_rowsWith` says so of every catalog whose indexes are those of their columns, whatever
the predicates hold of, however many rows there are, and whatever the constants are: an index that
exists is one that has passed its check.
-/

namespace AdaptiveJoin

/-! ### Keys of cells -/

/-- A key in a column of some kind. -/
inductive CellKey where
  | int (key : Int64)
  | double (key : DoubleKey)
  | text (key : String)
deriving DecidableEq

def CellKey.kind : CellKey → Kind
  | int _ => .int
  | double _ => .double
  | text _ => .text

/-- The key of a row of a column.  A null and what is not a number have none. -/
def Column.cellKey? (c : Column) (row : Nat) : Option CellKey :=
  match c.cells with
  | .int xs => xs[row]?.join.map .int
  | .double xs => (xs[row]?.join.bind DoubleKey.ofDouble?).map .double
  | .text xs => xs[row]?.join.map .text

/-- The key of a constant in a column of some kind. -/
def Value.cellKey? (v : Value) : Kind → Option CellKey
  | .int => v.intKey?.map .int
  | .double => v.doubleKey?.map .double
  | .text => v.textKey?.map .text

namespace Column

/-- The rows of a column that have a key, ascending; none if no key is asked for. -/
def rowsWith (c : Column) (key? : Option CellKey) : List Nat :=
  (List.range c.size).filter fun row => key?.isSome && c.cellKey? row == key?

variable {c : Column} {key? : Option CellKey} {row : Nat}

theorem pairwise_rowsWith (c : Column) (key? : Option CellKey) :
    (c.rowsWith key?).Pairwise (· < ·) :=
  List.pairwise_lt_range.filter _

theorem lt_size_of_cellKey? {key : CellKey} (h : c.cellKey? row = some key) : row < c.size := by
  have hcell {α : Type} {xs : Array (Option α)} {x : α} (hx : xs[row]?.join = some x) :
      row < xs.size :=
    (Array.getElem?_eq_some_iff.1 (ColumnIndex.join_eq_some_iff.1 hx)).1
  unfold cellKey? at h
  unfold size
  -- Only a cell that is not null has a key.
  cases hc : c.cells with
  | int xs =>
    rw [hc, Option.map_eq_some_iff] at h
    exact hcell h.choose_spec.1
  | double xs =>
    simp only [hc, Option.map_eq_some_iff, Option.bind_eq_some_iff] at h
    obtain ⟨_, ⟨x, hx, -⟩, -⟩ := h
    exact hcell hx
  | text xs =>
    rw [hc, Option.map_eq_some_iff] at h
    exact hcell h.choose_spec.1

/-- All keys of a column are of its kind. -/
theorem kind_of_cellKey? {key : CellKey} (h : c.cellKey? row = some key) : key.kind = c.kind := by
  unfold cellKey? at h
  unfold kind
  cases hc : c.cells with
  | int xs =>
    rw [hc, Option.map_eq_some_iff] at h
    obtain ⟨_, -, rfl⟩ := h
    rfl
  | double xs =>
    rw [hc, Option.map_eq_some_iff] at h
    obtain ⟨_, -, rfl⟩ := h
    rfl
  | text xs =>
    rw [hc, Option.map_eq_some_iff] at h
    obtain ⟨_, -, rfl⟩ := h
    rfl

theorem mem_rowsWith :
    row ∈ c.rowsWith key? ↔ ∃ key, key? = some key ∧ c.cellKey? row = some key := by
  rw [rowsWith, List.mem_filter, List.mem_range, Bool.and_eq_true, beq_iff_eq]
  constructor
  · rintro ⟨-, hsome, heq⟩
    obtain ⟨key, rfl⟩ := Option.isSome_iff_exists.1 hsome
    exact ⟨key, rfl, heq⟩
  · rintro ⟨key, rfl, heq⟩
    exact ⟨lt_size_of_cellKey? heq, rfl, heq⟩

end Column

/-! ### Lookups of keys -/

namespace ColumnIndex

/-- The first row after `after` that has a key.  Without a key, and with a key of another kind,
there is none. -/
def lookupKey? (ix : ColumnIndex) (key? : Option CellKey) (after : Int) (cursor : Cursor) :
    Option Nat × Cursor :=
  match ix, key? with
  | int runs, some (.int key) => runs.nextRowCached? key after cursor
  | double runs, some (.double key) => runs.nextRowCached? key after cursor
  | text runs, some (.text key) => runs.nextRowCached? key after cursor
  | _, _ => (none, cursor)

/-- A lookup of a cell is one of its key. -/
theorem lookupCell_eq_lookupKey? (ix : ColumnIndex) (source : Column) (row : Nat) (after : Int)
    (cursor : Cursor) :
    ix.lookupCell source row after cursor =
      ix.lookupKey? (source.cellKey? row) after cursor := by
  cases hs : source.cells with
  | int xs =>
    cases ix <;> simp only [lookupCell, Column.cellKey?, hs] <;> cases xs[row]?.join <;> rfl
  | double xs =>
    cases ix <;> simp only [lookupCell, Column.cellKey?, hs] <;>
      cases xs[row]?.join.bind DoubleKey.ofDouble? <;> rfl
  | text xs =>
    cases ix <;> simp only [lookupCell, Column.cellKey?, hs] <;> cases xs[row]?.join <;> rfl

/-- A lookup of a constant is one of its key. -/
theorem lookupValue_eq_lookupKey? (ix : ColumnIndex) (v : Value) (after : Int) (cursor : Cursor) :
    ix.lookupValue v after cursor = ix.lookupKey? (v.cellKey? ix.kind) after cursor := by
  cases ix with
  | int runs =>
    simp only [lookupValue, Value.cellKey?, kind]
    cases v.intKey? <;> rfl
  | double runs =>
    simp only [lookupValue, Value.cellKey?, kind]
    cases v.doubleKey? <;> rfl
  | text runs =>
    simp only [lookupValue, Value.cellKey?, kind]
    cases v.textKey? <;> rfl

section Represents

variable {ix : ColumnIndex} {c : Column}

/-- The rows with a key of the kind of the column are the occurrences of the key. -/
theorem rowsWith_eq_occurrences {κ : Type} [BEq κ] [LawfulBEq κ] {keys : Array (Option κ)}
    (hsize : c.size = keys.size) {make : κ → CellKey}
    (hkeys : ∀ row key, c.cellKey? row = some (make key) ↔ keys[row]? = some (some key)) (key : κ) :
    c.rowsWith (some (make key)) = occurrences keys key keys.size := by
  rw [Column.rowsWith, hsize]
  apply (filter_eq_occurrences keys (some key) _ fun row => ?_)
  rw [Option.isSome_some, Bool.true_and, beq_iff_eq, hkeys]
  simp

/-- No row has a key of another kind. -/
theorem rowsWith_of_kind_ne {key : CellKey} (h : key.kind ≠ c.kind) :
    c.rowsWith (some key) = [] := by
  rw [List.eq_nil_iff_forall_not_mem]
  intro row hrow
  obtain ⟨key', hkey', hkey⟩ := Column.mem_rowsWith.1 hrow
  rw [← Option.some.inj hkey'] at hkey
  exact h (Column.kind_of_cellKey? hkey)

theorem rowsWith_none (c : Column) : c.rowsWith none = [] := by simp [Column.rowsWith]

theorem lookupKey?_of_kind_ne {key : CellKey} (h : key.kind ≠ ix.kind) (after : Int)
    (cursor : Cursor) : ix.lookupKey? (some key) after cursor = (none, cursor) := by
  cases ix <;> cases key <;> first | rfl | exact absurd rfl h

/-- **A lookup of a key finds the next row that has the key.** -/
theorem Represents.lookupKey?_eq (h : ix.Represents c) (key? : Option CellKey) (after : Int)
    (cursor : Cursor) :
    (ix.lookupKey? key? after cursor).1 = firstAfter (c.rowsWith key?) after := by
  rcases key? with _ | key
  · rw [rowsWith_none]
    cases ix <;> rfl
  by_cases hkind : key.kind = ix.kind
  swap
  · -- A key of another kind finds nothing.
    rw [rowsWith_of_kind_ne (h.kind_eq ▸ hkind), lookupKey?_of_kind_ne hkind]
    rfl
  cases ix with
  | int runs =>
    obtain ⟨xs, hc, hruns⟩ := h
    obtain ⟨key, rfl⟩ : ∃ i, key = .int i := by
      cases key <;> simp_all [kind, CellKey.kind]
    have hkeys (row : Nat) (key : Int64) :
        c.cellKey? row = some (.int key) ↔ xs[row]? = some (some key) := by
      simp [Column.cellKey?, hc, join_eq_some_iff]
    rw [rowsWith_eq_occurrences (by simp [Column.size, hc]) hkeys]
    exact Runs.nextRowCached?_eq hruns key after cursor
  | double runs =>
    obtain ⟨xs, hc, hruns⟩ := h
    obtain ⟨key, rfl⟩ : ∃ d, key = .double d := by
      cases key <;> simp_all [kind, CellKey.kind]
    have hkeys (row : Nat) (key : DoubleKey) : c.cellKey? row = some (.double key) ↔
        (xs.map (·.bind DoubleKey.ofDouble?))[row]? = some (some key) := by
      rw [getElem?_doubleKeys]
      simp [Column.cellKey?, hc, Option.bind_eq_some_iff]
    rw [rowsWith_eq_occurrences (by simp [Column.size, hc]) hkeys]
    exact Runs.nextRowCached?_eq hruns key after cursor
  | text runs =>
    obtain ⟨xs, hc, hruns⟩ := h
    obtain ⟨key, rfl⟩ : ∃ t, key = .text t := by
      cases key <;> simp_all [kind, CellKey.kind]
    have hkeys (row : Nat) (key : String) :
        c.cellKey? row = some (.text key) ↔ xs[row]? = some (some key) := by
      simp [Column.cellKey?, hc, join_eq_some_iff]
    rw [rowsWith_eq_occurrences (by simp [Column.size, hc]) hkeys]
    exact Runs.nextRowCached?_eq hruns key after cursor

end Represents

end ColumnIndex

/-! ### Planned lookups -/

/-- The key that a lookup asks for, given the rows of the tables joined before. -/
def Lookup.key? (l : Lookup) (tuple : Tuple) : Option CellKey :=
  match l.source with
  | .cell source column => column.cellKey? (tuple.row source.table)
  | .constant v => v.cellKey? l.index.kind

theorem Lookup.next_eq_lookupKey? (l : Lookup) (tuple : Tuple) (after : Int) (cursor : Cursor) :
    l.next tuple after cursor = l.index.lookupKey? (l.key? tuple) after cursor := by
  unfold next key?
  cases l.source with
  | cell source column => exact l.index.lookupCell_eq_lookupKey? column _ after cursor
  | constant v => exact l.index.lookupValue_eq_lookupKey? v after cursor

/-- The column of a table for which a lookup stands: the one that its predicate names on the table.
-/
def Query.target? (q : Query) (table : Nat) (l : Lookup) : Option Column :=
  q.predicates[l.predicate]?.bind fun predicate =>
    (predicate.shape.columns.find? fun r => r.table == table).bind q.column?

namespace Planner

variable {p : Planner} {joined : TableSet} {table : Nat} {l : Lookup}

/-- A planned lookup is one in the index of its column. -/
theorem target_of_lookup? (htable : joined.contains table = false)
    (h : p.lookup? joined table = some l) (hbuilt : p.catalog.IsBuiltFor p.query) :
    ∃ c, p.query.target? table l = some c ∧ c.size = p.query.cardinality table ∧
      l.index.Represents c := by
  have hindex {target : ColumnRef} (htarget : target.table = table)
      (hindex : p.catalog.index? target = some l.index) :
      ∃ c, p.query.column? target = some c ∧ c.size = p.query.cardinality table ∧
        l.index.Represents c := by
    obtain ⟨c, hc, hok⟩ := hbuilt target l.index hindex
    exact ⟨c, hc, htarget ▸ Query.size_eq_cardinality hc, ColumnIndex.represents_of_checked hok⟩
  rcases lookup?_eq_some h with ⟨id, h⟩ | ⟨-, id, h⟩
  · obtain ⟨predicate, left, right, target, source, index, column, hid, hshape, hside, htarget,
      hjoined, hcatalog, -, -, rfl⟩ := joinLookup?_eq_some h
    obtain ⟨c, hc, hrest⟩ := hindex htarget hcatalog
    have hne : source.table ≠ table := fun heq => by
      rw [heq, htable] at hjoined
      exact absurd hjoined (by decide)
    refine ⟨c, ?_, hrest⟩
    -- The other side stands on a table joined before.
    have hfind : [left, right].find? (fun r => r.table == table) = some target := by
      rcases hside with hside | hside <;> obtain ⟨rfl, rfl⟩ := Prod.mk.inj hside
      · simp [htarget]
      · simp [htarget, hne]
    simp [Query.target?, hid, hshape, Predicate.Shape.columns, hfind, hc]
  · obtain ⟨predicate, column, value, index, hid, hshape, hcolumn, hcatalog, -, rfl⟩ :=
      constantLookup?_eq_some h
    obtain ⟨c, hc, hrest⟩ := hindex hcolumn hcatalog
    exact ⟨c, by simp [Query.target?, hid, hshape, Predicate.Shape.columns, hcolumn, hc], hrest⟩

/-- **A planned lookup runs through the rows of its column that have its key.** -/
theorem lists_rowsWith (htable : joined.contains table = false)
    (h : p.lookup? joined table = some l) (hbuilt : p.catalog.IsBuiltFor p.query) :
    ∃ c, p.query.target? table l = some c ∧
      l.Lists (p.query.cardinality table) fun tuple => c.rowsWith (l.key? tuple) := by
  obtain ⟨c, hc, hsize, hrep⟩ := target_of_lookup? htable h hbuilt
  refine ⟨c, hc, fun tuple => c.pairwise_rowsWith _, fun tuple after cursor => ?_,
    fun tuple row hrow => ?_⟩
  · rw [l.next_eq_lookupKey?]
    exact hrep.lookupKey?_eq _ after cursor
  · obtain ⟨key, -, hkey⟩ := Column.mem_rowsWith.1 hrow
    exact hsize ▸ Column.lt_size_of_cellKey? hkey

end Planner

end AdaptiveJoin
