import AdaptiveJoin.Proofs.Index.Ascending
import AdaptiveJoin.Proofs.Index.Column
import AdaptiveJoin.Proofs.Plan.Positions

/-!
# What planned lookups find

A lookup enumerates the rows that it finds in ascending order (`Lookup.Enumerates`).  The loops of a
join rely on no more than that it finds all rows on which its predicate holds
(`Planner.HasCompleteLookups`).

The lookups of a catalog whose indexes stand for their columns find exactly these rows
(`Planner.finds_iff`), so they are complete (`Planner.hasCompleteLookups`).  Without any bound on
the tables and the constants, they still only move forward (`Planner.hasAscendingLookups`).
-/

namespace AdaptiveJoin

namespace Lookup

/-- Whether a lookup finds a row for the rows of the tables joined before. -/
def Finds (l : Lookup) (tuple : Tuple) (row : Nat) : Prop :=
  (l.next tuple ((row : Int) - 1) .fresh).1 = some row

/-- From any row and any cursor on, the lookup finds its next row, all of them rows of a table. -/
structure Enumerates (l : Lookup) (cardinality : Nat) : Prop where
  lt : ∀ tuple row, l.Finds tuple row → row < cardinality
  next_eq_some : ∀ tuple after cursor row, (l.next tuple after cursor).1 = some row →
    l.Finds tuple row ∧ after < row ∧ ∀ r : Nat, l.Finds tuple r → after < r → row ≤ r
  next_eq_none : ∀ tuple after cursor, (l.next tuple after cursor).1 = none →
    ∀ r : Nat, l.Finds tuple r → (r : Int) ≤ after

/-- From any row and any cursor on, the lookup answers no row but later rows of a table. -/
def Ascends (l : Lookup) (cardinality : Nat) : Prop :=
  ∀ tuple after cursor row, (l.next tuple after cursor).1 = some row →
    after < (row : Int) ∧ row < cardinality

theorem Enumerates.ascends {l : Lookup} {cardinality : Nat} (h : l.Enumerates cardinality) :
    l.Ascends cardinality := fun tuple after cursor row hrow =>
  have ⟨hfinds, hlt, _⟩ := h.next_eq_some tuple after cursor row hrow
  ⟨hlt, h.lt tuple row hfinds⟩

/-- A lookup in an index that holds rows of its column only moves forward. -/
theorem ascends_of_holdsRows {l : Lookup} (h : l.index.HoldsRows) :
    l.Ascends l.index.cardinality := by
  intro tuple after cursor row hrow
  unfold next at hrow
  split at hrow
  · exact ColumnIndex.lookupCell_ascends h hrow
  · exact ColumnIndex.lookupValue_ascends h hrow

/-- A lookup looks at the row of one table only. -/
theorem next_congr {l : Lookup} {a b : Tuple}
    (h : ∀ source column, l.source = .cell source column →
      a.row source.table = b.row source.table) (after : Int) (cursor : Cursor) :
    l.next a after cursor = l.next b after cursor := by
  unfold next
  cases hs : l.source with
  | cell source column => simp only [h source column hs]
  | constant value => rfl

theorem finds_congr {l : Lookup} {a b : Tuple}
    (h : ∀ source column, l.source = .cell source column →
      a.row source.table = b.row source.table) (row : Nat) : l.Finds a row ↔ l.Finds b row := by
  rw [Finds, Finds, next_congr h]

/-- A lookup runs through some rows of a table in ascending order. -/
structure Lists (l : Lookup) (cardinality : Nat) (rows : Tuple → List Nat) : Prop where
  pairwise : ∀ tuple, (rows tuple).Pairwise (· < ·)
  next_eq : ∀ tuple after cursor, (l.next tuple after cursor).1 = firstAfter (rows tuple) after
  lt : ∀ tuple, ∀ row ∈ rows tuple, row < cardinality

namespace Lists

variable {l : Lookup} {cardinality : Nat} {rows : Tuple → List Nat}

/-- A lookup finds the rows that it runs through. -/
theorem finds_iff (h : l.Lists cardinality rows) (tuple : Tuple) (row : Nat) :
    l.Finds tuple row ↔ row ∈ rows tuple := by
  unfold Finds
  rw [h.next_eq, firstAfter_eq_some_iff (h.pairwise tuple)]
  exact ⟨And.left, fun hmem => ⟨hmem, by omega, fun r _ _ => by omega⟩⟩

theorem enumerates (h : l.Lists cardinality rows) : l.Enumerates cardinality where
  lt tuple row hfinds := h.lt tuple row ((h.finds_iff tuple row).1 hfinds)
  next_eq_some tuple after cursor row hrow := by
    simp only [h.finds_iff]
    rwa [h.next_eq, firstAfter_eq_some_iff (h.pairwise tuple)] at hrow
  next_eq_none tuple after cursor hnone := by
    simp only [h.finds_iff]
    rwa [h.next_eq, firstAfter_eq_none_iff] at hnone

end Lists

/-- A lookup runs through the rows of a table on which its predicate holds. -/
structure RunsThrough (l : Lookup) (q : Query) (table : Nat) (rows : Tuple → List Nat) : Prop
    extends l.Lists (q.cardinality table) rows where
  mem_iff : ∃ predicate, q.predicates[l.predicate]? = some predicate ∧
    ∀ tuple : Tuple, tuple.size = q.nrTables → ∀ row, row ∈ rows tuple ↔
      row < q.cardinality table ∧ predicate.eval (tuple.setIfInBounds table row) = .holds

end Lookup

/-- The indexes of a catalog are those of the columns that they are registered for. -/
def Catalog.IsBuiltFor (catalog : Catalog) (q : Query) : Prop :=
  ∀ r ix, catalog.index? r = some ix →
    ∃ column, q.column? r = some column ∧ ColumnIndex.ofColumn column = .ok ix

theorem Catalog.index?_empty (r : ColumnRef) : Catalog.empty.index? r = none := by
  simp [index?, empty]

theorem Catalog.isBuiltFor_empty (q : Query) : Catalog.empty.IsBuiltFor q :=
  fun r _ h => absurd ((index?_empty r).symm.trans h) nofun

namespace Planner

/-- Without indexes nothing is looked up. -/
theorem lookup?_of_empty {p : Planner} (h : p.catalog = .empty) (joined : TableSet) (table : Nat) :
    p.lookup? joined table = none := by
  have hjoin (id : Nat) : p.joinLookup? joined table id = none := by
    unfold joinLookup?
    rw [h]
    cases p.query.predicates[id]? with
    | none => rfl
    | some predicate =>
      rw [Option.bind_eq_bind, Option.bind_some]
      split
      · split <;> simp [Catalog.index?_empty]
      · rfl
  -- Neither a column of another table nor a constant is looked up without an index.
  have hconstant (id : Nat) : p.constantLookup? table id = none := by
    unfold constantLookup?
    rw [h]
    cases p.query.predicates[id]? with
    | none => rfl
    | some predicate =>
      rw [Option.bind_eq_bind, Option.bind_some]
      split
      · split
        · rfl
        · simp [Catalog.index?_empty]
      · rfl
  unfold lookup?
  simp [hjoin, hconstant]

/-- Without indexes, a table is run through and its predicates are checked in their order. -/
theorem position_of_empty {p : Planner} (h : p.catalog = .empty) (joined : TableSet)
    (table : Nat) : p.position joined table = ⟨table, none,
      (List.range p.query.predicates.size).filter fun id =>
        (p.query.predicates[id]?.map (p.isChecked joined table)).getD false⟩ := by
  unfold position
  rw [lookup?_of_empty h]
  rfl

/-- The lookups planned for tables that are not joined yet find all rows on which their predicates
hold, given the rows of the other tables. -/
structure HasCompleteLookups (p : Planner) : Prop where
  enumerates : ∀ joined table l, joined.contains table = false →
    p.lookup? joined table = some l → l.Enumerates (p.query.cardinality table)
  complete : ∀ joined table l predicate, joined.contains table = false →
    p.lookup? joined table = some l → p.query.predicates[l.predicate]? = some predicate →
    ∀ a b : Tuple, a.size = p.query.nrTables → p.query.HasTuple b →
      (∀ t ∈ predicate.tables, t ≠ table → a.row t = b.row t) → predicate.eval b = .holds →
      l.Finds a (b.row table)

/-- All lookups that are planned only move forward. -/
def HasAscendingLookups (p : Planner) : Prop :=
  ∀ joined table l, p.lookup? joined table = some l → l.Ascends (p.query.cardinality table)

/-- **The lookups of a catalog whose indexes stand for their columns only move forward.** -/
theorem hasAscendingLookups {p : Planner} (hbuilt : p.catalog.IsBuiltFor p.query) :
    p.HasAscendingLookups := by
  have hindex {r : ColumnRef} {l : Lookup} (h : p.catalog.index? r = some l.index) :
      l.Ascends (p.query.cardinality r.table) := by
    obtain ⟨column, hcolumn, hok⟩ := hbuilt r l.index h
    obtain ⟨hrows, hsize⟩ := ColumnIndex.holdsRows_of_ofColumn hok
    rw [← Query.size_eq_cardinality hcolumn, ← hsize]
    exact Lookup.ascends_of_holdsRows hrows
  intro joined table l h
  rcases lookup?_eq_some h with ⟨id, h⟩ | ⟨-, id, h⟩
  · obtain ⟨_, _, _, target, _, index, _, _, _, _, rfl, _, htarget, _, _, rfl⟩ :=
      joinLookup?_eq_some h
    exact hindex htarget
  · obtain ⟨_, column, _, index, _, _, rfl, hcolumn, _, rfl⟩ := constantLookup?_eq_some h
    exact hindex hcolumn

section Exact

variable {p : Planner} {joined : TableSet} {table : Nat} {l : Lookup}
  (hq : ∀ q ∈ p.query.predicates, p.query.Explains q) (hsmall : p.query.HasSmallTables)
  (hexact : p.query.HasExactConstants) (hbuilt : p.catalog.IsBuiltFor p.query)

include hq hsmall hbuilt in
/-- A lookup of a join runs through the rows whose cell equals the one that it looks at. -/
theorem runsThrough_of_joinLookup? {id : Nat} (htable : joined.contains table = false)
    (h : p.joinLookup? joined table id = some l) :
    ∃ rows, l.RunsThrough p.query table rows := by
  obtain ⟨predicate, left, right, target, source, index, column, hid, hshape, hside, rfl, hjoined,
    hindex, hcolumn, hkind, rfl⟩ := joinLookup?_eq_some h
  obtain ⟨c, hc, hok⟩ := hbuilt target index hindex
  have hsize := Query.size_eq_cardinality hc
  have hrep := ColumnIndex.represents_of_ofColumn (hsize ▸ hsmall.cardinality_lt _) hok
  have hne : target.table ≠ source.table := fun heq => by
    rw [heq, hjoined] at htable
    exact absurd htable (by decide)
  obtain ⟨htables, a, b, ha, hb, heval⟩ :=
    (hq predicate (Array.mem_of_getElem? hid)).equiJoin left right hshape
  have hlt := (hq predicate (Array.mem_of_getElem? hid)).tables_lt
  refine ⟨fun tuple => ColumnIndex.rowsOfCell c column (tuple.row source.table),
    ⟨fun tuple => ColumnIndex.pairwise_rowsOfCell _ _ _,
      fun tuple after cursor => ColumnIndex.lookupCell_eq hrep (hkind.trans hrep.kind_eq) after
        cursor, fun tuple row hrow => ?_⟩, predicate, hid, fun tuple htuple row => ?_⟩
  · exact hsize ▸ List.mem_range.1 (List.mem_filter.1 hrow).1
  · show row ∈ ColumnIndex.rowsOfCell c column (tuple.row source.table) ↔ _
    rw [ColumnIndex.rowsOfCell, List.mem_filter, List.mem_range, hsize, beq_iff_eq, heval,
      Comparison.truth_eq_holds_iff, Tuple.row_setIfInBounds, Tuple.row_setIfInBounds]
    apply and_congr_right
    intro _
    -- The column that is looked up stands on either side of the predicate.
    rcases hside with hside | hside <;> obtain ⟨rfl, rfl⟩ := Prod.mk.inj hside
    · have hlt := (hlt target.table ((htables _).2 (Or.inl rfl))).1
      obtain rfl := Option.some.inj (hc.symm.trans ha)
      obtain rfl := Option.some.inj (hcolumn.symm.trans hb)
      rw [if_pos ⟨rfl, htuple ▸ hlt⟩, if_neg fun h => hne h.1, Column.compareCells_eq_comm]
    · have hlt := (hlt target.table ((htables _).2 (Or.inr rfl))).1
      obtain rfl := Option.some.inj (hc.symm.trans hb)
      obtain rfl := Option.some.inj (hcolumn.symm.trans ha)
      rw [if_neg fun h => hne h.1, if_pos ⟨rfl, htuple ▸ hlt⟩]

include hq hsmall hexact hbuilt in
/-- A lookup of a constant runs through the rows whose cell equals the constant. -/
theorem runsThrough_of_constantLookup? {id : Nat} (h : p.constantLookup? table id = some l) :
    ∃ rows, l.RunsThrough p.query table rows := by
  obtain ⟨predicate, column, value, index, hid, hshape, rfl, hindex, -, rfl⟩ :=
    constantLookup?_eq_some h
  obtain ⟨c, hc, hok⟩ := hbuilt column index hindex
  have hsize := Query.size_eq_cardinality hc
  have hrep := ColumnIndex.represents_of_ofColumn (hsize ▸ hsmall.cardinality_lt _) hok
  have hmem := Array.mem_of_getElem? hid
  obtain ⟨htables, c', hc', heval⟩ := (hq predicate hmem).constantEquality column value hshape
  obtain rfl := Option.some.inj (hc.symm.trans hc')
  have hlt := ((hq predicate hmem).tables_lt column.table (by rw [htables]; simp)).1
  refine ⟨fun _ => ColumnIndex.rowsOfValue c value,
    ⟨fun _ => ColumnIndex.pairwise_rowsOfValue _ _,
      fun _ after cursor => ColumnIndex.lookupValue_eq hrep
        (hexact predicate hmem column value c hshape hc) after cursor,
      fun _ row hrow => ?_⟩, predicate, hid, fun tuple htuple row => ?_⟩
  · exact hsize ▸ List.mem_range.1 (List.mem_filter.1 hrow).1
  · show row ∈ ColumnIndex.rowsOfValue c value ↔ _
    rw [ColumnIndex.rowsOfValue, List.mem_filter, List.mem_range, hsize, beq_iff_eq, heval,
      Comparison.truth_eq_holds_iff, Tuple.row_setIfInBounds, if_pos ⟨rfl, htuple ▸ hlt⟩]

include hq hsmall hexact hbuilt in
theorem exists_runsThrough (htable : joined.contains table = false)
    (h : p.lookup? joined table = some l) : ∃ rows, l.RunsThrough p.query table rows := by
  rcases lookup?_eq_some h with ⟨id, h⟩ | ⟨-, id, h⟩
  · exact runsThrough_of_joinLookup? hq hsmall hbuilt htable h
  · exact runsThrough_of_constantLookup? hq hsmall hexact hbuilt h

include hq hsmall hexact hbuilt in
/-- **A planned lookup finds exactly the rows of the table on which its predicate holds.** -/
theorem finds_iff (htable : joined.contains table = false) (h : p.lookup? joined table = some l)
    {predicate : Predicate} (hid : p.query.predicates[l.predicate]? = some predicate)
    {tuple : Tuple} (htuple : tuple.size = p.query.nrTables) (row : Nat) :
    l.Finds tuple row ↔ row < p.query.cardinality table ∧
      predicate.eval (tuple.setIfInBounds table row) = .holds := by
  obtain ⟨rows, hrows⟩ := exists_runsThrough hq hsmall hexact hbuilt htable h
  obtain ⟨predicate', hid', hmem⟩ := hrows.mem_iff
  obtain rfl := Option.some.inj (hid'.symm.trans hid)
  rw [hrows.finds_iff, hmem tuple htuple]

include hq hsmall hexact hbuilt in
/-- **The lookups of a catalog whose indexes stand for their columns are complete.** -/
theorem hasCompleteLookups : p.HasCompleteLookups := by
  refine ⟨fun joined table l htable h => ?_,
    fun joined table l predicate htable h hid a b ha hb hagree hholds => ?_⟩
  · obtain ⟨rows, hrows⟩ := exists_runsThrough hq hsmall hexact hbuilt htable h
    exact hrows.enumerates
  · have hpredicate := hq predicate (Array.mem_of_getElem? hid)
    obtain ⟨predicate', hid', hmem, -⟩ :=
      exists_predicate (fun q hmem => (hq q hmem).toDescribes) h
    obtain rfl := Option.some.inj (hid'.symm.trans hid)
    have hlt := (hpredicate.tables_lt table hmem).1
    rw [finds_iff hq hsmall hexact hbuilt htable h hid ha]
    refine ⟨hb.2 table hlt, ?_⟩
    rw [← hholds]
    -- Only the row of the table itself may differ, and it has been put in.
    apply hpredicate.isLocal _ _ (by simpa using ha) hb.1
    intro t ht
    rw [Tuple.row_setIfInBounds]
    by_cases heq : table = t
    · subst heq
      rw [if_pos ⟨rfl, ha ▸ hlt⟩]
    · rw [if_neg fun h => heq h.1]
      exact hagree t ht (Ne.symm heq)

end Exact

end Planner

end AdaptiveJoin
