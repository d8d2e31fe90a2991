import AdaptiveJoin.Proofs.Index.Column
import AdaptiveJoin.Proofs.Index.Exact

/-!
# Join lookups agree with equalities

A join finds the rows of a table either by lookups of a cell in the index of a column or by the
equality of the two columns on all rows.  `lookupCell_agrees` says that this is the same: for every
two columns of one kind, nulls, NaN and both zeros included, the lookups of a cell (`scanCell`)
answer the rows that compare equal with the cell, ascending, whatever the cursor is, and these are
the rows on which the predicate that equates the columns holds.
-/

namespace AdaptiveJoin

namespace ColumnIndex

/-- The rows that lookups of a cell answer one after the other, each after the row that was found
last and with the cursor that the lookup before it left behind.  `none` stands for a scan without
end. -/
def scanCell (ix : ColumnIndex) (source : Column) (row : Nat) (after : Int) (c : Cursor) :
    Option (List Nat) :=
  match ix.lookupCell source row after c with
  | (none, _) => some []
  | (some found, cursor) => do
    let rows ← (scanCell ix source row (c := cursor)) found
    return found :: rows
partial_fixpoint

section Scan

variable {ix : ColumnIndex} {source : Column} {row : Nat}

theorem scanCell_of_none {after : Int} {cursor : Cursor}
    (h : (ix.lookupCell source row after cursor).1 = none) :
    ix.scanCell source row after cursor = some [] := by
  obtain ⟨cursor', hlookup⟩ : ∃ cursor', ix.lookupCell source row after cursor = (none, cursor') :=
    ⟨_, Prod.ext h rfl⟩
  rw [scanCell, hlookup]

theorem scanCell_of_some {after : Int} {cursor : Cursor} {found : Nat}
    (h : (ix.lookupCell source row after cursor).1 = some found) :
    ∃ cursor', ix.scanCell source row after cursor =
      (ix.scanCell source row found cursor').map (found :: ·) := by
  obtain ⟨cursor', hlookup⟩ :
      ∃ cursor', ix.lookupCell source row after cursor = (some found, cursor') :=
    ⟨_, Prod.ext h rfl⟩
  refine ⟨cursor', ?_⟩
  rw [scanCell, hlookup, Option.map_eq_bind]
  rfl

/-- Lookups that do not depend on the cursor are scanned as without one. -/
theorem scanCell_of_scan {next : Int → Option Nat}
    (hnext : ∀ after cursor, (ix.lookupCell source row after cursor).1 = next after)
    {rows : List Nat} {after : Int} (h : scan next after = some rows) (cursor : Cursor) :
    ix.scanCell source row after cursor = some rows := by
  -- Every lookup leaves a cursor of its own behind, so the rest is scanned from any cursor.
  induction rows generalizing after cursor with
  | nil =>
    cases hfirst : next after with
    | none => exact scanCell_of_none ((hnext after cursor).trans hfirst)
    | some found =>
      rw [scan_of_some hfirst] at h
      exact absurd h (by simp)
  | cons first rest ih =>
    cases hfirst : next after with
    | none =>
      rw [scan_of_none hfirst] at h
      exact absurd h (by simp)
    | some found =>
      rw [scan_of_some hfirst, Option.map_eq_some_iff] at h
      obtain ⟨rest', hrest, hcons⟩ := h
      obtain ⟨rfl, rfl⟩ := List.cons.inj hcons
      obtain ⟨cursor', hscan⟩ := scanCell_of_some ((hnext after cursor).trans hfirst)
      rw [hscan, ih hrest cursor', Option.map_some]

end Scan

section Agreement

variable {source target : Column} {row : Nat}

theorem mem_rowsOfCell {r : Nat} : r ∈ rowsOfCell target source row ↔
    r < target.size ∧ source.compareCells row target r = some .eq := by
  rw [rowsOfCell, List.mem_filter, List.mem_range, beq_iff_eq]

/-- Only cells of rows compare with anything. -/
theorem mem_rowsOfCell_of_compareCells {r : Nat}
    (h : source.compareCells row target r = some .eq) : r ∈ rowsOfCell target source row := by
  refine mem_rowsOfCell.2 ⟨?_, h⟩
  rw [Column.compareCells_eq] at h
  obtain ⟨v, -, hv⟩ := Option.bind_eq_some_iff.1 h
  obtain ⟨w, hw, -⟩ := Option.bind_eq_some_iff.1 hv
  exact Column.lt_size_of_value? hw

/-- **A scan from the start answers the rows that compare equal with the cell.** -/
theorem Represents.scanCell_eq {ix : ColumnIndex} (h : ix.Represents target)
    (hkind : source.kind = target.kind) (cursor : Cursor) :
    ix.scanCell source row (-1) cursor = some (rowsOfCell target source row) := by
  have hnext (after : Int) (cursor : Cursor) : (ix.lookupCell source row after cursor).1 =
      firstAfter (rowsOfCell target source row) after := lookupCell_eq h hkind after cursor
  apply scanCell_of_scan hnext
  rw [scan_eq_rowsAfter (pairwise_rowsOfCell _ _ _) fun _ => rfl, TableFilter.rowsAfter_start]

/-- The equality of two columns holds on the rows of the cell. -/
theorem truth_compareCells_eq_holds_iff {r : Nat} :
    Comparison.eq.truth (source.compareCells row target r) = .holds ↔
      r ∈ rowsOfCell target source row := by
  rw [Comparison.truth_eq_holds_iff]
  exact ⟨mem_rowsOfCell_of_compareCells, fun h => (mem_rowsOfCell.1 h).2⟩

/-- **Lookups of cells agree with equalities of columns.**  A column of fewer than `2 ^ 31` rows has
an index.  For every cell of a column of the same kind, a lookup in it answers the next row that
compares equal with the cell, whatever the cursor is, and a scan answers all of these rows once and
in ascending order.  The predicates that equate the two columns, either way round, hold on exactly
these rows. -/
theorem lookupCell_agrees (hsize : target.size < 2 ^ 31) (hkind : source.kind = target.kind) :
    ∃ ix, ofColumn target = .ok ix ∧ ∀ row, ∃ rows : List Nat,
      (∀ after cursor, (ix.lookupCell source row after cursor).1 = firstAfter rows after) ∧
      (∀ cursor, ix.scanCell source row (-1) cursor = some rows) ∧ rows.Pairwise (· < ·) ∧
      (∀ r, r ∈ rows ↔ r < target.size ∧ source.compareCells row target r = some .eq) ∧
      ∀ (tables : Array Table) (left right : ColumnRef) (s t : Table),
        left.resolve tables = .ok (s, source) → right.resolve tables = .ok (t, target) →
          ∃ p p', Predicate.compareColumns tables left .eq right = .ok p ∧
            Predicate.compareColumns tables right .eq left = .ok p' ∧
            ∀ tuple : Tuple, tuple.row left.table = row →
              (p.eval tuple = .holds ↔ tuple.row right.table ∈ rows) ∧
              (p'.eval tuple = .holds ↔ tuple.row right.table ∈ rows) := by
  obtain ⟨ix, hix, hrep⟩ := ofColumn_eq_ok hsize
  refine ⟨ix, hix, fun row => ⟨rowsOfCell target source row, lookupCell_eq hrep hkind,
    hrep.scanCell_eq hkind, pairwise_rowsOfCell _ _ _, fun r => mem_rowsOfCell, ?_⟩⟩
  intro tables left right s t hleft hright
  obtain ⟨p, hp, heval⟩ := compareColumns_of_resolve hleft hright .eq
  obtain ⟨p', hp', heval'⟩ := compareColumns_of_resolve hright hleft .eq
  refine ⟨p, p', hp, hp', ?_⟩
  rintro tuple rfl
  constructor
  · rw [heval, truth_compareCells_eq_holds_iff]
  · -- Written the other way round, the predicate compares the same two cells.
    rw [heval', Comparison.truth_eq_holds_iff, Column.compareCells_eq_comm,
      ← Comparison.truth_eq_holds_iff, truth_compareCells_eq_holds_iff]

/-- Both zeros, NaN, an infinity and a null. -/
def doublesSample (name : String) : Column :=
  ⟨name, .double #[some ⟨0⟩, some ⟨0x7ff8000000000000⟩, some ⟨0x8000000000000000⟩, none,
    some ⟨0x7ff0000000000000⟩]⟩

theorem lookupCell_agrees_sample :
    (doublesSample "y").size < 2 ^ 31 ∧ (doublesSample "x").kind = (doublesSample "y").kind ∧
      ∃ ix, ofColumn (doublesSample "y") = .ok ix ∧
        ix.scanCell (doublesSample "x") 2 (-1) ⟨some 3, 1⟩ = some [0, 2] ∧
        ix.scanCell (doublesSample "x") 1 (-1) ⟨none, 0⟩ = some [] ∧
        ix.scanCell (doublesSample "x") 3 (-1) ⟨none, 0⟩ = some [] ∧
        ix.scanCell (doublesSample "x") 4 (-1) ⟨none, 0⟩ = some [4] := by
  have hsize : (doublesSample "y").size < 2 ^ 31 := by decide
  have hkind : (doublesSample "x").kind = (doublesSample "y").kind := rfl
  refine ⟨hsize, hkind, ?_⟩
  obtain ⟨ix, hix, h⟩ := lookupCell_agrees hsize hkind
  have hscan (row : Nat) (cursor : Cursor) : ix.scanCell (doublesSample "x") row (-1) cursor =
      some (rowsOfCell (doublesSample "y") (doublesSample "x") row) := by
    obtain ⟨rows, -, hrows, hascending, hmem, -⟩ := h row
    rw [hrows, Option.some.injEq]
    exact hascending.eq_of_mem_iff (pairwise_rowsOfCell _ _ _) fun r =>
      (hmem r).trans mem_rowsOfCell.symm
  refine ⟨ix, hix, ?_⟩
  simp only [hscan]
  decide +kernel

end Agreement

end ColumnIndex

end AdaptiveJoin
