import AdaptiveJoin.Proofs.Filter.Constants
import AdaptiveJoin.Proofs.Filter.Masks

/-!
# Rows within the table

What a filter keeps depends on its predicates, and these may be anything.  Whether the kept rows are
rows of the table at all depends on the indexes: rows that are scanned one after another are, rows
that are supplied are as long as the index has no others (`TableFilter.HasOwnRows`).

* `TableFilter.IsWithin.execute`: then no call keeps a row beyond the table, however large slices
  and batches are.
* `TableFilter.IsAscending.execute`: nor does a call keep a row twice or out of order, as long as
  slices and batches do not overflow.
-/

namespace AdaptiveJoin

/-- The rows of a key are rows of the column. -/
theorem ColumnIndex.lt_size_of_mem_rowsOfKey {c : Column} {v : Value} {row : Nat}
    (h : row ∈ rowsOfKey c v) : row < c.size := by
  have hlt {κ : Type} [BEq κ] [LawfulBEq κ] {keys : Array (Option κ)} {key? : Option κ}
      (h : row ∈ (key?.map fun key => occurrences keys key keys.size).getD []) :
      row < keys.size := by
    cases key? with
    | none => exact absurd h List.not_mem_nil
    | some key => exact (mem_occurrences.1 h).1
  unfold rowsOfKey at h
  unfold Column.size
  cases hc : c.cells <;> rw [hc] at h
  · exact hlt h
  · simpa using hlt h
  · exact hlt h

namespace TableFilter

variable {f : TableFilter} {slice : Slice} {next : Nat}

/-! ### Slices -/

/-- All indexes of a filter supply rows of its table only. -/
def HasOwnRows (f : TableFilter) : Prop :=
  ∀ (p : Nat) (access : FilterIndex), f.indexes[p]? = some (some access) →
    ∃ rows, access.Supplies rows ∧ ∀ row ∈ rows, row < f.cardinality

/-- A slice keeps rows between the cursor and the new cursor only, in ascending order. -/
structure Ascends (f : TableFilter) (slice : Slice) (next : Nat) : Prop where
  lt : f.cursor < next
  le : next ≤ f.cardinality
  ascending : slice.kept.Pairwise (· < ·)
  between : ∀ row ∈ slice.kept, f.cursor ≤ row ∧ row < next

theorem Decides.ascends (h : f.Decides slice next) : f.Ascends slice next := by
  refine ⟨h.lt, h.le, ?_, fun row hrow => ?_⟩
  · rw [h.kept]
    exact (pairwise_upTo next).filter _
  · rw [h.kept, List.mem_filter, mem_upTo] at hrow
    exact hrow.1

theorem Covers.ascends {rows supplied : List Nat} (h : f.Covers rows supplied next)
    (order : List Nat) : f.Ascends (f.decideRows order supplied) next := by
  refine ⟨h.lt, h.le, ?_, fun row hrow => ?_⟩
  · rw [kept_decideRows]
    exact h.ascending.filter _
  · rw [kept_decideRows, List.mem_filter, h.mem_iff] at hrow
    exact hrow.1.2

/-- The ranges of a slice end with the slice, even if batches overflow. -/
theorem le_of_mem_sliceRanges {start stop : UInt32} {batches : UInt64} {range : UInt32 × UInt32}
    (h : range ∈ sliceRanges start stop batches) : range.2.toNat ≤ stop.toNat := by
  unfold sliceRanges at h
  split at h
  · obtain ⟨batch, -, rfl⟩ := List.mem_map.1 h
    show (min _ stop).toNat ≤ _
    rw [toNat_min_row]
    exact Nat.min_le_right _ _
  · obtain rfl := List.mem_singleton.1 h
    exact Nat.le_refl _

/-- A slice ends with the table, even if its budget overflows. -/
theorem toNat_sliceEnd_le (start cardinality : UInt32) (budget : UInt64) :
    (sliceEnd start cardinality budget).toNat ≤ cardinality.toNat := by
  have hlt := cardinality.toNat_lt
  unfold sliceEnd
  rw [UInt64.toNat_toUInt32, toNat_min_word, UInt32.toNat_toUInt64]
  have := Nat.min_le_right (start.toUInt64 + budget).toNat cardinality.toNat
  omega

/-- **Deciding rows one after another keeps rows of the table only**, even if words overflow. -/
theorem kept_scan_lt (hlimit : f.cardinality < 2 ^ 32) (order : List Nat)
    (budget batches : UInt64) :
    ∀ row ∈ (f.scan order budget batches).1.kept, row < f.cardinality := by
  have hcardinality : (UInt32.ofNat f.cardinality).toNat = f.cardinality := by
    rw [UInt32.toNat_ofNat']
    exact Nat.mod_eq_of_lt hlimit
  rw [scan_eq]
  dsimp only
  intro row hrow
  -- However words overflow, ranges end with the slice, and the slice ends with the table.
  rw [kept_decideRows, List.mem_filter, List.mem_flatMap] at hrow
  obtain ⟨⟨range, hrange, hrow⟩, -⟩ := hrow
  have hle := le_of_mem_sliceRanges hrange
  have hstop := toNat_sliceEnd_le (UInt32.ofNat f.cursor) (UInt32.ofNat f.cardinality) budget
  unfold rowsOfRange at hrow
  rw [List.mem_range'_1] at hrow
  omega

section IsSlice

variable {budget batches : UInt64} {choice : FilterChoice}
  (h : f.IsSlice (max budget 1) (max batches 1) choice slice next)
  (hunfinished : f.cursor < f.cardinality) (hlimit : f.cardinality < 2 ^ 32)
  (hindexes : f.HasOwnRows)

include h hunfinished hindexes

/-- Rows that an index supplies ascend in any case, as their batches cannot overflow. -/
theorem IsSlice.scan_or_ascends :
    (slice = (f.scan (f.evaluationOrder choice none) (max budget 1) (max batches 1)).1 ∧
      next = (f.scan (f.evaluationOrder choice none) (max budget 1) (max batches 1)).2) ∨
    f.Ascends slice next := by
  have hbudget : 0 < (max budget 1).toNat := by
    rw [toNat_max_one]
    omega
  have hbatches : 0 < (max batches 1).toNat := by
    rw [toNat_max_one]
    omega
  cases h with
  | scan => exact Or.inl ⟨rfl, rfl⟩
  | indexScan hindex =>
    obtain ⟨rows, hsupplies, hrows⟩ := hindexes _ _ hindex
    -- The rows come from the index, which supplies them in ascending order.
    obtain ⟨supplied, hslice, hcovers⟩ :=
      indexScan_covers hunfinished hsupplies hrows (f.evaluationOrder choice _) hbudget
    rw [hslice]
    exact Or.inr (hcovers.ascends _)
  | batchedIndexScan hindex hslice =>
    obtain ⟨rows, hsupplies, hrows⟩ := hindexes _ _ hindex
    -- The batches together are a part of what the index supplies.
    obtain ⟨supplied, rfl, hcovers⟩ := batchedIndexScan_covers hunfinished hbudget hbatches
      hsupplies hrows hslice
    exact Or.inr (hcovers.ascends _)

include hlimit

/-- **A slice ascends**, as long as its budget and its batches do not overflow. -/
theorem IsSlice.ascends (hfits : f.Fits budget batches) : f.Ascends slice next := by
  have hbudget := toNat_max_one budget
  have hbatches := toNat_max_one batches
  have hfits₁ := hfits.budget
  have hfits₂ := hfits.batches
  obtain ⟨rfl, rfl⟩ | hascends := h.scan_or_ascends hunfinished hindexes
  · exact (decides_scan hunfinished hlimit choice (by omega) (by omega) (by omega)).ascends
  · exact hascends

/-- **A slice keeps rows of the table only.** -/
theorem IsSlice.kept_lt : ∀ row ∈ slice.kept, row < f.cardinality := by
  obtain ⟨rfl, -⟩ | hascends := h.scan_or_ascends hunfinished hindexes
  · exact kept_scan_lt hlimit _ _ _
  · exact fun row hrow => (hascends.between row hrow).2.trans_le hascends.le

end IsSlice

/-! ### Calls -/

/-- A filter over a table of `n` rows keeps rows of the table only, and its indexes have no
others. -/
structure IsWithin (f : TableFilter) (n : Nat) : Prop where
  cardinality_eq : f.cardinality = n
  cardinality_lt : n < 2 ^ 32
  hasOwnRows : f.HasOwnRows
  rows_lt : ∀ row ∈ f.rows, row < n

/-- The kept rows ascend, up to the cursor. -/
structure IsAscending (f : TableFilter) (n : Nat) : Prop extends f.IsWithin n where
  ascending : f.rows.toList.Pairwise (· < ·)
  rows_lt_cursor : ∀ row ∈ f.rows, row < f.cursor

variable {n : Nat}

theorem mem_rows_decided {lookup : Cursor} {row : Nat} :
    row ∈ (f.decided slice next lookup).rows ↔ row ∈ f.rows ∨ row ∈ slice.kept := by
  simp [decided]

theorem IsWithin.decided (h : f.IsWithin n) (hkept : ∀ row ∈ slice.kept, row < f.cardinality)
    (lookup : Cursor) : (f.decided slice next lookup).IsWithin n where
  cardinality_eq := h.cardinality_eq
  cardinality_lt := h.cardinality_lt
  hasOwnRows := h.hasOwnRows
  rows_lt row hrow := (mem_rows_decided.1 hrow).elim (h.rows_lt row) fun hrow =>
    h.cardinality_eq ▸ hkept row hrow

/-- **No call keeps a row beyond the table.** -/
theorem IsWithin.execute (h : f.IsWithin n) (budget : UInt64) (choice : FilterChoice) :
    (f.execute budget choice).2.IsWithin n := by
  have hlimit : f.cardinality < 2 ^ 32 := h.cardinality_eq ▸ h.cardinality_lt
  rcases f.execute_slices budget choice with ⟨-, heq⟩ | ⟨-, -, heq⟩ | ⟨-, -, heq⟩ |
    ⟨hunfinished, -, -, slice, next, lookup, hslice, heq⟩
  · rwa [heq]
  · rwa [heq]
  · rwa [heq]
  · rw [heq]
    exact h.decided (hslice.kept_lt hunfinished hlimit h.hasOwnRows) lookup

/-- **No call keeps a row twice or out of order**, unless words overflow. -/
theorem IsAscending.execute (h : f.IsAscending n) {budget : UInt64} {choice : FilterChoice}
    (hfits : f.Fits budget choice.batches) : (f.execute budget choice).2.IsAscending n := by
  have hlimit : f.cardinality < 2 ^ 32 := h.cardinality_eq ▸ h.cardinality_lt
  rcases f.execute_slices budget choice with ⟨-, heq⟩ | ⟨-, -, heq⟩ | ⟨-, -, heq⟩ |
    ⟨hunfinished, -, -, slice, next, lookup, hslice, heq⟩
  · rwa [heq]
  · rwa [heq]
  · rwa [heq]
  · have hascends := hslice.ascends hunfinished hlimit h.hasOwnRows hfits
    have hkept := hslice.kept_lt hunfinished hlimit h.hasOwnRows
    rw [heq]
    refine ⟨h.toIsWithin.decided hkept lookup, ?_, fun row hrow => ?_⟩
    · show (f.rows ++ slice.kept.toArray).toList.Pairwise _
      rw [Array.toList_append, List.pairwise_append]
      -- What was kept lies below the old cursor, and what the slice keeps does not.
      refine ⟨h.ascending, hascends.ascending, fun a ha b hb => ?_⟩
      exact (h.rows_lt_cursor a (Array.mem_toList_iff.1 ha)).trans_le (hascends.between b hb).1
    · exact (mem_rows_decided.1 hrow).elim
        (fun hrow => (h.rows_lt_cursor row hrow).trans hascends.lt)
        fun hrow => (hascends.between row hrow).2

/- A budget that does not fit takes the cursor back, and its row is decided twice. -/
example :
    ((⟨.ofTables #[], 0, 4, #[], #[], 1, #[0], .fresh⟩ : TableFilter).execute 0xFFFFFFFFFFFFFFFF
      .start).2.cursor = 0 := by
  decide +kernel

end TableFilter

/-! ### Whole tables -/

/-- Every equality with a constant that a single table decides names a column that is not longer
than the table. -/
def Query.HasOwnConstants (q : Query) : Prop :=
  ∀ p ∈ q.predicates, ∀ table column value, p.tables = [table] →
    p.shape = .constantEquality column value → q.cardinality column.table ≤ q.cardinality table

/-- Predicates that are made for the query name columns of their own tables. -/
theorem Query.hasOwnConstants_of_makes {q : Query} (h : ∀ p ∈ q.predicates, q.Makes p) :
    q.HasOwnConstants := by
  intro p hp table column value htables hshape
  obtain ⟨htables', -⟩ := (h p hp).describes.constantEquality column value hshape
  rw [htables, List.cons.injEq] at htables'
  rw [htables'.1]

section Table

variable {q : Query} {table : Nat} {catalog : Catalog}

/-- The indexes of a table supply rows of the table only. -/
theorem Query.hasOwnRows_startFilter (hcardinality : q.cardinality table < rowLimit)
    (hcatalog : catalog.IsBuiltFor q) (hconstants : q.HasOwnConstants) :
    (q.startFilter catalog table).HasOwnRows := by
  intro p access haccess
  obtain ⟨id, hid, haccess⟩ := indexes_startFilter haccess
  obtain ⟨predicate, column, hpredicate, hshape, hindex⟩ := filterIndex?_eq_some haccess
  obtain ⟨predicate', hpredicate', htables⟩ :=
    mem_unaryPredicates.1 (List.mem_of_getElem? hid)
  obtain rfl := Option.some.inj (hpredicate'.symm.trans hpredicate)
  obtain ⟨c, hc, hok⟩ := hcatalog column access.index hindex
  refine ⟨_, (ColumnIndex.represents_of_checked hok).supplies access.value, fun row hrow => ?_⟩
  have hlt := ColumnIndex.lt_size_of_mem_rowsOfKey hrow
  -- The rows are those of the column the constant is compared with, which is not longer.
  have hle := hconstants predicate' (Array.mem_of_getElem? hpredicate) table column access.value
    htables hshape
  rw [size_eq_cardinality hc] at hlt
  show row < min (q.cardinality table) rowLimit
  omega

variable (hcardinality : q.cardinality table < rowLimit) (hcatalog : catalog.IsBuiltFor q)
  (hconstants : q.HasOwnConstants)

include hcardinality hcatalog hconstants

/-- A filter that has decided no row keeps none. -/
theorem Query.isAscending_startFilter :
    (q.startFilter catalog table).IsAscending (q.cardinality table) where
  cardinality_eq := Nat.min_eq_left hcardinality.le
  cardinality_lt := by
    unfold rowLimit at hcardinality
    omega
  hasOwnRows := hasOwnRows_startFilter hcardinality hcatalog hconstants
  rows_lt row hrow := absurd hrow (Array.not_mem_empty row)
  ascending := List.Pairwise.nil
  rows_lt_cursor row hrow := absurd hrow (Array.not_mem_empty row)

variable {γ : Type} [RandomSource γ] {config : FilterConfig} {source : γ} {filtered : FilteredTable}
  (h : q.filterTable table catalog config source = some filtered)

include h

/-- **A table is filtered to rows of its own.** -/
theorem Query.rows_filterTable_lt : ∀ row ∈ filtered.rows, row < q.cardinality table := by
  have hstart := isAscending_startFilter hcardinality hcatalog hconstants
  have hcalls : config.Keeps (·.IsWithin (q.cardinality table)) :=
    fun f choice hf _ => hf.execute _ choice
  obtain ⟨-, hrows⟩ | ⟨f, hf, -, hrows⟩ := filterTable_keeps hcalls hstart.toIsWithin h
  · rw [hrows]
    exact fun row hrow => List.mem_range.1 hrow
  · rw [hrows]
    exact fun row hrow => hf.rows_lt row (Array.mem_toList_iff.1 hrow)

/-- **A table is filtered to ascending rows**, unless words overflow. -/
theorem Query.pairwise_rows_filterTable (hfits : config.Fits (q.cardinality table)) :
    filtered.rows.Pairwise (· < ·) := by
  have hstart := isAscending_startFilter hcardinality hcatalog hconstants
  have hcalls : config.Keeps (·.IsAscending (q.cardinality table)) := by
    intro f choice hf hoffers
    have hfits' : config.Fits f.cardinality := hf.cardinality_eq.symm ▸ hfits
    exact hf.execute (hfits'.fits hoffers)
  obtain ⟨-, hrows⟩ | ⟨f, hf, -, hrows⟩ := filterTable_keeps hcalls hstart h
  · rw [hrows]
    exact List.pairwise_lt_range
  · rw [hrows]
    exact hf.ascending

end Table

end AdaptiveJoin
