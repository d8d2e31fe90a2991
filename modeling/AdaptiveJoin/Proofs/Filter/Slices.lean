import Mathlib.Data.List.Sort
import AdaptiveJoin.Proofs.Filter.Ranges
import AdaptiveJoin.Proofs.Index.Lookup

/-!
# Slices of a filter

`TableFilter.Decides` says what a slice has to achieve: it keeps the rows from the cursor to the new
cursor on which all predicates hold.  All ways of deciding a slice do so, whatever the choice is:

* `decides_scan`: deciding rows one after another;
* `decides_indexScan`: looking at the rows that an index supplies;
* `decides_batchedIndexScan`: doing so in batches.
-/

namespace AdaptiveJoin

/-- An index supplies some rows, to one reader or in shares to several ones. -/
structure FilterIndex.Supplies (access : FilterIndex) (rows : List Nat) : Prop where
  ascending : rows.Pairwise (· < ·)
  lookup : ∀ after cursor,
    (access.index.lookupValue access.value after cursor).1 = firstAfter rows after
  share : ∀ after batch batches, batch < batches →
    access.index.lookupInPartition? access.value after batch batches =
      firstAfter (Runs.dealt rows batch batches) after

theorem Slice.append_assoc (a b c : Slice) : (a.append b).append c = a.append (b.append c) := by
  unfold append
  rw [List.append_assoc, Nat.add_assoc]

namespace TableFilter

variable (f : TableFilter)

/-- The tuple on which the predicates of a row are evaluated. -/
def tupleOf (row : Nat) : Tuple := (Array.replicate f.query.nrTables 0).setIfInBounds f.table row

/-- Whether a predicate holds of a row. -/
def satisfies (p row : Nat) : Bool :=
  f.query.holds (f.predicates[p]?.getD 0) (f.tupleOf row)

/-- Whether all predicates hold of a row. -/
def accepts (row : Nat) : Bool := f.predicates.all fun id => f.query.holds id (f.tupleOf row)

/-- The rows from the cursor on and below `next`. -/
def upTo (next : Nat) : List Nat := List.range' f.cursor (next - f.cursor)

/-- A slice moves the cursor ahead and keeps the rows in between on which all predicates hold. -/
structure Decides (slice : Slice) (next : Nat) : Prop where
  lt : f.cursor < next
  le : next ≤ f.cardinality
  kept : slice.kept = (f.upTo next).filter f.accepts

/-- Every index of the filter supplies the rows on which its predicate holds. -/
def HasExactIndexes : Prop :=
  ∀ p access, f.indexes[p]? = some (some access) → p < f.predicates.size ∧
    access.Supplies ((List.range f.cardinality).filter (f.satisfies p))

variable {f}

theorem accepts_iff {row : Nat} :
    f.accepts row = true ↔ ∀ p < f.predicates.size, f.satisfies p row = true := by
  unfold accepts satisfies
  rw [Array.all_eq_true]
  constructor
  · intro h p hp
    rw [Array.getElem?_eq_getElem hp]
    exact h p hp
  · intro h p hp
    have hholds := h p hp
    rwa [Array.getElem?_eq_getElem hp] at hholds

theorem mem_upTo {next row : Nat} : row ∈ f.upTo next ↔ f.cursor ≤ row ∧ row < next := by
  unfold upTo
  rw [List.mem_range'_1]
  omega

theorem pairwise_upTo (next : Nat) : (f.upTo next).Pairwise (· < ·) := List.pairwise_lt_range'

/-! ### Evaluation -/

theorem evaluateAll_eq (tuple : Tuple) (order : List Nat) :
    (f.evaluateAll tuple order).1 =
      order.all fun p => f.query.holds (f.predicates[p]?.getD 0) tuple := by
  induction order with
  | nil => rfl
  | cons p rest ih =>
    unfold evaluateAll
    rw [List.all_cons]
    split
    · rename_i hholds
      rw [hholds, Bool.true_and]
      exact ih
    · rename_i hfails
      rw [Bool.not_eq_true] at hfails
      rw [hfails, Bool.false_and]

theorem kept_decideRow (order : List Nat) (row : Nat) :
    (f.decideRow order row).kept = if order.all (f.satisfies · row) then [row] else [] := by
  show (if (f.evaluateAll (f.tupleOf row) order).1 then [row] else []) = _
  rw [evaluateAll_eq]
  rfl

theorem kept_decideRows (order rows : List Nat) :
    (f.decideRows order rows).kept = rows.filter fun row => order.all (f.satisfies · row) := by
  induction rows with
  | nil => rfl
  | cons row rest ih =>
    show (f.decideRow order row).kept ++ (f.decideRows order rest).kept = _
    rw [ih, kept_decideRow, List.filter_cons]
    split <;> rfl

/-- The order of evaluation leaves out the predicate of the index only. -/
theorem mem_evaluationOrder {choice : FilterChoice} {indexed : Option Nat} {p : Nat} :
    p ∈ f.evaluationOrder choice indexed ↔ p < f.predicates.size ∧ some p ≠ indexed := by
  unfold evaluationOrder
  simp only [List.mem_append, List.mem_filter, List.mem_range, Bool.and_eq_true, decide_eq_true_eq,
    bne_iff_ne, Bool.not_eq_true', List.contains_eq_mem, decide_eq_false_iff_not]
  constructor
  · rintro (⟨-, h⟩ | ⟨hlt, hne, -⟩)
    · exact h
    · exact ⟨hlt, hne⟩
  · rintro ⟨hlt, hne⟩
    by_cases hmem : p ∈ choice.order
    · exact Or.inl ⟨hmem, hlt, hne⟩
    · exact Or.inr ⟨hlt, hne, fun h => hmem h.1⟩

/-- **Rows are decided alike in every order of evaluation**, if the predicate left out holds of
them. -/
theorem kept_decideRows_evaluationOrder (choice : FilterChoice) {indexed : Option Nat}
    {rows : List Nat} (h : ∀ p, indexed = some p → ∀ row ∈ rows, f.satisfies p row = true) :
    (f.decideRows (f.evaluationOrder choice indexed) rows).kept = rows.filter f.accepts := by
  rw [kept_decideRows]
  apply List.filter_congr
  intro row hrow
  rw [Bool.eq_iff_iff, List.all_eq_true, accepts_iff]
  constructor
  · intro hall p hp
    by_cases heq : some p = indexed
    · exact h p heq.symm row hrow
    · exact hall p (mem_evaluationOrder.2 ⟨hp, heq⟩)
  · intro hall p hp
    exact hall p (mem_evaluationOrder.1 hp).1

theorem decideRows_append (order rows rows' : List Nat) : f.decideRows order (rows ++ rows') =
    (f.decideRows order rows).append (f.decideRows order rows') := by
  induction rows with
  | nil => simp [decideRows, Slice.empty, Slice.append]
  | cons row rest ih =>
    show (f.decideRow order row).append (f.decideRows order (rest ++ rows')) = _
    rw [ih, ← Slice.append_assoc]
    rfl

/-! ### Deciding rows in turn -/

/-- A scan decides the rows of its ranges, in turn. -/
theorem scan_eq (order : List Nat) (budget batches : UInt64) :
    f.scan order budget batches =
      let start := UInt32.ofNat f.cursor
      let stop := sliceEnd start (UInt32.ofNat f.cardinality) budget
      (f.decideRows order ((sliceRanges start stop batches).flatMap rowsOfRange), stop.toNat) := by
  unfold scan
  dsimp only
  generalize sliceRanges _ _ _ = ranges
  congr 1
  induction ranges with
  | nil => rfl
  | cons range rest ih =>
    rw [List.flatMap_cons, decideRows_append, ← ih]
    rfl

/-- The rows of a slice, as long as the end of its budget is a word. -/
theorem toNat_sliceEnd_cursor (hcursor : f.cursor ≤ f.cardinality) (hlimit : f.cardinality < 2 ^ 32)
    {budget : UInt64} (hbudget : f.cursor + budget.toNat < 2 ^ 64) :
    (UInt32.ofNat f.cursor).toNat = f.cursor ∧
      (sliceEnd (UInt32.ofNat f.cursor) (UInt32.ofNat f.cardinality) budget).toNat =
        min (f.cursor + budget.toNat) f.cardinality := by
  have hword : (UInt32.ofNat f.cursor).toNat = f.cursor := by
    rw [UInt32.toNat_ofNat']
    exact Nat.mod_eq_of_lt (by omega)
  have hcardinality : (UInt32.ofNat f.cardinality).toNat = f.cardinality := by
    rw [UInt32.toNat_ofNat']
    exact Nat.mod_eq_of_lt hlimit
  refine ⟨hword, ?_⟩
  rw [toNat_sliceEnd (by omega) (by omega), hword, hcardinality]

/-- **Deciding the next rows one after another decides a slice**, in any number of batches. -/
theorem decides_scan (hunfinished : f.cursor < f.cardinality) (hlimit : f.cardinality < 2 ^ 32)
    (choice : FilterChoice) {budget batches : UInt64} (hpos : 0 < budget.toNat)
    (hbudget : budget.toNat + f.cardinality < 2 ^ 64)
    (hbatches : f.cardinality + batches.toNat ≤ 2 ^ 32) :
    f.Decides (f.scan (f.evaluationOrder choice none) budget batches).1
      (f.scan (f.evaluationOrder choice none) budget batches).2 := by
  obtain ⟨hcursor, hstop⟩ := toNat_sliceEnd_cursor (Nat.le_of_lt hunfinished) hlimit
    (show f.cursor + budget.toNat < 2 ^ 64 by omega)
  rw [scan_eq]
  dsimp only
  generalize sliceEnd (UInt32.ofNat f.cursor) (UInt32.ofNat f.cardinality) budget = stop at hstop ⊢
  refine ⟨by omega, by omega, ?_⟩
  rw [flatMap_sliceRanges (by omega) (by omega) (by omega), hcursor]
  exact kept_decideRows_evaluationOrder choice fun p hp => absurd hp (by simp)

/-! ### Rows that an index supplies -/

/-- An index has supplied all of its rows from the cursor on and below `next`. -/
structure Covers (f : TableFilter) (rows supplied : List Nat) (next : Nat) : Prop where
  lt : f.cursor < next
  le : next ≤ f.cardinality
  ascending : supplied.Pairwise (· < ·)
  mem_iff : ∀ row, row ∈ supplied ↔ row ∈ rows ∧ f.cursor ≤ row ∧ row < next

/-- The rows of a slice that the index of a predicate has supplied are decided like all rows of the
slice, because the predicate fails on the others. -/
theorem Covers.decides {p next : Nat} {supplied : List Nat}
    (h : f.Covers ((List.range f.cardinality).filter (f.satisfies p)) supplied next)
    (choice : FilterChoice) (hp : p < f.predicates.size) :
    f.Decides (f.decideRows (f.evaluationOrder choice (some p)) supplied) next := by
  have hmem (row : Nat) : row ∈ supplied ↔
      f.cursor ≤ row ∧ row < next ∧ f.satisfies p row = true := by
    have hle := h.le
    rw [h.mem_iff, List.mem_filter, List.mem_range]
    constructor
    · rintro ⟨⟨-, hholds⟩, hge, hlt⟩
      exact ⟨hge, hlt, hholds⟩
    · rintro ⟨hge, hlt, hholds⟩
      exact ⟨⟨by omega, hholds⟩, hge, hlt⟩
  refine ⟨h.lt, h.le, ?_⟩
  rw [kept_decideRows_evaluationOrder choice]
  · -- Both lists ascend, so it is enough that they have the same rows.
    apply List.Pairwise.eq_of_mem_iff (h.ascending.filter _) ((pairwise_upTo next).filter _)
    intro row
    rw [List.mem_filter, List.mem_filter, hmem, mem_upTo]
    constructor
    · rintro ⟨⟨hge, hlt, -⟩, haccepts⟩
      exact ⟨⟨hge, hlt⟩, haccepts⟩
    · rintro ⟨⟨hge, hlt⟩, haccepts⟩
      exact ⟨⟨hge, hlt, accepts_iff.1 haccepts p hp⟩, haccepts⟩
  · intro p' hp' row hrow
    -- The predicate of the index is not evaluated: it holds on all rows supplied.
    rw [← Option.some.inj hp']
    exact ((hmem row).1 hrow).2.2

/-- The rows after a given one. -/
def rowsAfter (rows : List Nat) (after : Int) : List Nat :=
  rows.filter fun row => after < (row : Int)

theorem mem_rowsAfter {rows : List Nat} {after : Int} {row : Nat} :
    row ∈ rowsAfter rows after ↔ row ∈ rows ∧ after < (row : Int) := by
  simp [rowsAfter]

/-- All rows come after the start. -/
theorem rowsAfter_start (rows : List Nat) : rowsAfter rows (-1) = rows :=
  List.filter_eq_self.2 fun row _ => decide_eq_true (by omega)

/-- Without a first row there is none. -/
theorem rowsAfter_eq_nil {rows : List Nat} {after : Int} (h : firstAfter rows after = none) :
    rowsAfter rows after = [] := by
  apply List.filter_eq_nil_iff.2
  intro row hrow
  have := firstAfter_eq_none_iff.1 h row hrow
  simpa using this

/-- The rows after a given one are the first of them and those after the first. -/
theorem rowsAfter_eq_cons {rows : List Nat} (hascending : rows.Pairwise (· < ·)) {after : Int}
    {first : Nat} (h : firstAfter rows after = some first) :
    rowsAfter rows after = first :: rowsAfter rows first := by
  obtain ⟨hmem, hgt, hleast⟩ := (firstAfter_eq_some_iff hascending).1 h
  apply List.Pairwise.eq_of_mem_iff (hascending.filter _)
  · refine List.pairwise_cons.2 ⟨fun row hrow => ?_, hascending.filter _⟩
    have := (mem_rowsAfter.1 hrow).2
    omega
  · intro row
    rw [List.mem_cons, mem_rowsAfter, ← rowsAfter, mem_rowsAfter]
    constructor
    · rintro ⟨hrow, hlt⟩
      have := hleast row hrow hlt
      by_cases heq : row = first
      · exact Or.inl heq
      · exact Or.inr ⟨hrow, by omega⟩
    · rintro (rfl | ⟨hrow, hlt⟩)
      · exact ⟨hmem, hgt⟩
      · exact ⟨hrow, by omega⟩

/-- The first few of some ascending rows are those up to the last one taken. -/
theorem mem_take_iff {rows : List Nat} (hascending : rows.Pairwise (· < ·)) {n : Nat} (hpos : 0 < n)
    (hn : n ≤ rows.length) : ∃ last ∈ rows, (rows.take n).getLast? = some last ∧
      ∀ row, row ∈ rows.take n ↔ row ∈ rows ∧ row ≤ last := by
  have hne : rows.take n ≠ [] := by
    intro hnil
    have := congrArg List.length hnil
    rw [List.length_take, List.length_nil] at this
    omega
  have hsplit := hascending
  rw [← List.take_append_drop n rows, List.pairwise_append] at hsplit
  obtain ⟨htake, -, hbefore⟩ := hsplit
  have hlast := List.getLast_mem hne
  refine ⟨_, List.mem_of_mem_take hlast, List.getLast?_eq_some_getLast hne, fun row => ?_⟩
  constructor
  · intro hrow
    refine ⟨List.mem_of_mem_take hrow, ?_⟩
    rw [← List.dropLast_concat_getLast hne, List.mem_append, List.mem_singleton] at hrow
    rw [← List.dropLast_concat_getLast hne, List.pairwise_append] at htake
    -- The rows taken come before the last one taken.
    rcases hrow with hrow | heq
    · exact Nat.le_of_lt (htake.2.2 row hrow _ (List.mem_singleton.2 rfl))
    · exact Nat.le_of_eq heq
  · rintro ⟨hrow, hle⟩
    rw [← List.take_append_drop n rows, List.mem_append] at hrow
    rcases hrow with hrow | hrow
    · exact hrow
    · -- The rows left come behind it.
      have := hbefore _ hlast row hrow
      omega

/-- The rows supplied are the first few after the given one; the last of them is known while there
may be further ones. -/
theorem supply_eq {access : FilterIndex} {rows : List Nat} (h : access.Supplies rows)
    (budget : Nat) (after : Int) (cursor : Cursor) :
    (supply access after cursor budget).1 = (rowsAfter rows after).take budget ∧
      (supply access after cursor budget).2.1 =
        if (rowsAfter rows after).length < budget then none
        else some ((((rowsAfter rows after).take budget).getLast?.map Int.ofNat).getD after) := by
  induction budget generalizing after cursor with
  | zero => exact ⟨rfl, rfl⟩
  | succ budget ih =>
    unfold supply
    have hfirst := h.lookup after cursor
    rcases hlookup : access.index.lookupValue access.value after cursor with ⟨row?, cursor'⟩
    rw [hlookup] at hfirst
    cases row? with
    | none =>
      -- The index has no further row.
      rw [rowsAfter_eq_nil hfirst.symm]
      exact ⟨rfl, rfl⟩
    | some first =>
      -- One row is supplied, and the rest of the budget goes on behind it.
      obtain ⟨hrows, hlast⟩ := ih first cursor'
      rw [rowsAfter_eq_cons h.ascending hfirst.symm, List.take_succ_cons, List.length_cons,
        List.getLast?_cons]
      refine ⟨congrArg (first :: ·) hrows, hlast.trans ?_⟩
      simp only [Nat.add_lt_add_iff_right]
      congr 2
      cases ((rowsAfter rows first).take budget).getLast? <;> rfl

/-- The rows of an index after the one before the cursor. -/
theorem mem_rowsAfter_cursor {rows : List Nat} {row : Nat} :
    row ∈ rowsAfter rows ((f.cursor : Int) - 1) ↔ row ∈ rows ∧ f.cursor ≤ row := by
  rw [mem_rowsAfter]
  exact and_congr_right fun _ => by omega

section Index

variable {access : FilterIndex} {rows : List Nat}

/-- **The next rows of an index are all of its rows up to the new cursor.** -/
theorem indexScan_covers (hunfinished : f.cursor < f.cardinality) (h : access.Supplies rows)
    (hrows : ∀ row ∈ rows, row < f.cardinality) (order : List Nat) {budget : Nat}
    (hpos : 0 < budget) :
    ∃ supplied, (f.indexScan access order budget).1 = f.decideRows order supplied ∧
      f.Covers rows supplied (f.indexScan access order budget).2.1 := by
  obtain ⟨hsupplied, hlast⟩ := supply_eq h budget ((f.cursor : Int) - 1) f.lookup
  have hascending := h.ascending.filter fun row : Nat => (f.cursor : Int) - 1 < (row : Int)
  have hrest (row : Nat) : row ∈ rowsAfter rows ((f.cursor : Int) - 1) ↔
      row ∈ rows ∧ f.cursor ≤ row := mem_rowsAfter_cursor
  rw [← rowsAfter] at hascending
  refine ⟨_, rfl, ?_⟩
  unfold indexScan
  generalize supply access ((f.cursor : Int) - 1) f.lookup budget = supply at *
  generalize rowsAfter rows ((f.cursor : Int) - 1) = rest at *
  obtain ⟨supplied, last?, cursor⟩ := supply
  dsimp only at *
  rw [hlast, hsupplied]
  by_cases hfew : rest.length < budget
  · -- The index has no further row, so the rest of the table is decided.
    rw [if_pos hfew, List.take_of_length_le (Nat.le_of_lt hfew)]
    refine ⟨hunfinished, Nat.le_refl _, hascending, fun row => ?_⟩
    rw [hrest]
    exact and_congr_right fun hrow => (and_iff_left (hrows row hrow)).symm
  · -- The budget is used up, and the slice ends behind the last row supplied.
    obtain ⟨last, hmem, hget, htake⟩ := mem_take_iff hascending hpos (Nat.not_lt.1 hfew)
    obtain ⟨hlast, hge⟩ := (hrest last).1 hmem
    have hlt := hrows last hlast
    rw [if_neg hfew, hget]
    have hnext : (Int.ofNat last + 1).toNat = last + 1 := rfl
    show f.Covers rows _ (Int.ofNat last + 1).toNat
    rw [hnext]
    refine ⟨by omega, by omega, hascending.sublist (List.take_sublist _ _), fun row => ?_⟩
    rw [htake, hrest, and_assoc, Nat.lt_succ_iff]

/-- **Looking at the next rows of an index decides a slice.** -/
theorem decides_indexScan (hunfinished : f.cursor < f.cardinality) (hindexes : f.HasExactIndexes)
    (choice : FilterChoice) {p : Nat} (hindex : f.indexes[p]? = some (some access)) {budget : Nat}
    (hpos : 0 < budget) :
    f.Decides (f.indexScan access (f.evaluationOrder choice (some p)) budget).1
      (f.indexScan access (f.evaluationOrder choice (some p)) budget).2.1 := by
  obtain ⟨hp, hsupplies⟩ := hindexes p access hindex
  obtain ⟨supplied, hslice, hcovers⟩ := indexScan_covers hunfinished hsupplies
    (fun row hrow => List.mem_range.1 (List.mem_filter.1 hrow).1)
    (f.evaluationOrder choice (some p)) hpos
  rw [hslice]
  exact hcovers.decides choice hp

end Index

/-! ### Batches of rows that an index supplies -/

section Batches

variable {access : FilterIndex} {rows : List Nat} {batch batches quota : Nat} {after : Int}

/-- A batch supplies the first few of the rows that are dealt to it. -/
theorem supplyBatch_eq (h : access.Supplies rows) (hbatch : batch < batches) (quota : Nat)
    (after : Int) : supplyBatch access batch batches after quota =
      ((rowsAfter (Runs.dealt rows batch batches) after).take quota,
        decide ((rowsAfter (Runs.dealt rows batch batches) after).length < quota)) := by
  induction quota generalizing after with
  | zero => rfl
  | succ quota ih =>
    unfold supplyBatch
    rw [h.share after batch batches hbatch]
    cases hfirst : firstAfter (Runs.dealt rows batch batches) after with
    | none =>
      rw [rowsAfter_eq_nil hfirst]
      simp
    | some first =>
      rw [rowsAfter_eq_cons (Runs.pairwise_dealt h.ascending batch batches) hfirst]
      simp [ih]

/-- The row below which a batch has supplied all rows that are dealt to it, `none` if there are no
further ones. -/
def shareBound (share : List Nat × Bool) : Option Nat :=
  if share.2 then none else share.1.getLast?.map (· + 1)

/-- A batch supplies the rows dealt to it that are below its bound, and its bound lies right after
such a row. -/
theorem supplyBatch_spec (h : access.Supplies rows) (hbatch : batch < batches) (hpos : 0 < quota) :
    (∀ bound, shareBound (supplyBatch access batch batches after quota) = some bound →
      ∃ row ∈ rowsAfter (Runs.dealt rows batch batches) after, bound = row + 1) ∧
    ∀ row, row ∈ (supplyBatch access batch batches after quota).1 ↔
      row ∈ rowsAfter (Runs.dealt rows batch batches) after ∧
        ∀ bound, shareBound (supplyBatch access batch batches after quota) = some bound →
          row < bound := by
  have hascending : (rowsAfter (Runs.dealt rows batch batches) after).Pairwise (· < ·) :=
    (Runs.pairwise_dealt h.ascending batch batches).filter _
  rw [supplyBatch_eq h hbatch]
  generalize rowsAfter (Runs.dealt rows batch batches) after = share at hascending
  unfold shareBound
  by_cases hfew : share.length < quota
  · -- The share is supplied completely, so there is no bound.
    simp [hfew, List.take_of_length_le (Nat.le_of_lt hfew)]
  · -- Rows may be left in the share, all of them behind the last one supplied.
    obtain ⟨last, hmem, hget, htake⟩ := mem_take_iff hascending hpos (Nat.not_lt.1 hfew)
    simp only [hfew, decide_false, Bool.false_eq_true, if_false, hget, Option.map_some,
      Option.some.injEq, htake]
    refine ⟨?_, fun row => ?_⟩
    · rintro bound rfl
      exact ⟨last, hmem, rfl⟩
    · constructor
      · rintro ⟨hrow, hle⟩
        refine ⟨hrow, ?_⟩
        rintro bound rfl
        omega
      · rintro ⟨hrow, hlt⟩
        have := hlt _ rfl
        exact ⟨hrow, by omega⟩

/-- The least bound of some batches, the number of rows without any. -/
theorem suppliedBelow_spec {shares : List (List Nat × Bool)} {start cardinality : Nat}
    (hstart : start < cardinality)
    (h : ∀ share ∈ shares, ∀ bound, shareBound share = some bound →
      start < bound ∧ bound ≤ cardinality) :
    start < suppliedBelow shares cardinality ∧ suppliedBelow shares cardinality ≤ cardinality ∧
      ∀ share ∈ shares, ∀ bound, shareBound share = some bound →
        suppliedBelow shares cardinality ≤ bound := by
  have heq : suppliedBelow shares cardinality =
      ((shares.filterMap shareBound).min?).getD cardinality := rfl
  rw [heq]
  cases hmin : (shares.filterMap shareBound).min? with
  | none =>
    -- No share is bounded, so the whole table is decided.
    refine ⟨hstart, Nat.le_refl _, fun share hshare bound hbound => ?_⟩
    have hmem := List.mem_filterMap.2 ⟨share, hshare, hbound⟩
    rw [List.min?_eq_none_iff.1 hmin] at hmem
    exact absurd hmem List.not_mem_nil
  | some least =>
    -- The least bound of a share ends the slice.
    obtain ⟨hmem, hle⟩ := List.min?_eq_some_iff.1 hmin
    obtain ⟨share, hshare, hbound⟩ := List.mem_filterMap.1 hmem
    obtain ⟨hgt, hbelow⟩ := h share hshare least hbound
    refine ⟨hgt, hbelow, fun share hshare bound hbound => ?_⟩
    exact hle bound (List.mem_filterMap.2 ⟨share, hshare, hbound⟩)

/-- No row is dealt to two batches. -/
theorem disjoint_dealt (hascending : rows.Pairwise (· < ·)) {other : Nat} (hne : batch ≠ other) :
    List.Disjoint (Runs.dealt rows batch batches) (Runs.dealt rows other batches) := by
  intro row hrow hother
  obtain ⟨i, hi, hbatch⟩ := Runs.mem_dealt.1 hrow
  obtain ⟨j, hj, hbatch'⟩ := Runs.mem_dealt.1 hother
  have hnodup : rows.Nodup := hascending.imp fun hlt => Nat.ne_of_lt hlt
  obtain ⟨hlt, hrow'⟩ := List.getElem?_eq_some_iff.1 hi
  have heq := (List.getElem?_inj hlt hnodup).1 (hi.trans hj.symm)
  rw [← hbatch, ← hbatch', heq] at hne
  exact hne rfl

/-- What some batches supply. -/
def shares (access : FilterIndex) (after : Int) (batches quota : Nat) : List (List Nat × Bool) :=
  (List.range batches).map fun batch => supplyBatch access batch batches after quota

/-- No row is supplied twice. -/
theorem nodup_shares (h : access.Supplies rows) :
    ((shares access after batches quota).flatMap Prod.fst).Nodup := by
  unfold shares
  rw [List.flatMap_map, List.nodup_flatMap]
  have hsublist {batch : Nat} (hbatch : batch ∈ List.range batches) :
      (supplyBatch access batch batches after quota).1.Sublist
        (Runs.dealt rows batch batches) := by
    rw [supplyBatch_eq h (List.mem_range.1 hbatch)]
    exact (List.take_sublist _ _).trans List.filter_sublist
  constructor
  · intro batch hbatch
    exact ((Runs.pairwise_dealt h.ascending batch batches).sublist (hsublist hbatch)).imp
      fun hlt => Nat.ne_of_lt hlt
  · apply List.nodup_range.imp_of_mem
    intro a b ha hb hne row hrow hrow'
    exact disjoint_dealt h.ascending hne ((hsublist ha).mem hrow) ((hsublist hb).mem hrow')

/-- Below the least bound the batches together have supplied all rows. -/
theorem mem_shares (h : access.Supplies rows) (hpos : 0 < quota) (hbatches : 0 < batches)
    {next row : Nat} (hlt : row < next)
    (hnext : ∀ share ∈ shares access after batches quota, ∀ bound,
      shareBound share = some bound → next ≤ bound) :
    row ∈ (shares access after batches quota).flatMap Prod.fst ↔ row ∈ rowsAfter rows after := by
  unfold shares at hnext ⊢
  rw [List.flatMap_map, List.mem_flatMap, mem_rowsAfter]
  constructor
  · rintro ⟨batch, hbatch, hrow⟩
    have hmem := (((supplyBatch_spec h (List.mem_range.1 hbatch) hpos).2 row).1 hrow).1
    obtain ⟨hdealt, hgt⟩ := mem_rowsAfter.1 hmem
    obtain ⟨i, hi, -⟩ := Runs.mem_dealt.1 hdealt
    exact ⟨List.mem_of_getElem? hi, hgt⟩
  · rintro ⟨hrow, hgt⟩
    -- The row belongs to the batch that its place is dealt to.
    obtain ⟨i, hi⟩ := List.mem_iff_getElem?.1 hrow
    have hbatch : i % batches < batches := Nat.mod_lt _ hbatches
    have hmem := List.mem_range.2 hbatch
    refine ⟨i % batches, hmem, ((supplyBatch_spec h hbatch hpos).2 row).2 ⟨?_, ?_⟩⟩
    · exact mem_rowsAfter.2 ⟨Runs.mem_dealt.2 ⟨i, hi, rfl⟩, hgt⟩
    · intro bound hbound
      exact Nat.lt_of_lt_of_le hlt (hnext _ (List.mem_map_of_mem hmem) bound hbound)

end Batches

/-- Sorting rows that are all different makes them ascend. -/
theorem pairwise_mergeSort {rows : List Nat} (h : rows.Nodup) :
    rows.mergeSort.Pairwise (· < ·) := by
  have hsorted : rows.mergeSort.Pairwise fun a b => decide (a ≤ b) = true := by
    apply List.pairwise_mergeSort
    · intro a b c hab hbc
      rw [decide_eq_true_eq] at *
      omega
    · intro a b
      rw [Bool.or_eq_true, decide_eq_true_eq, decide_eq_true_eq]
      omega
  have hnodup := (List.mergeSort_perm rows fun a b => decide (a ≤ b)).nodup_iff.2 h
  apply (hsorted.and hnodup).imp
  rintro a b ⟨hle, hne⟩
  rw [decide_eq_true_eq] at hle
  omega

section Index

variable {access : FilterIndex} {rows : List Nat} {budget batches : UInt64}
  (hunfinished : f.cursor < f.cardinality) (hpos : 0 < budget.toNat) (hbatches : 0 < batches.toNat)

include hunfinished hpos hbatches

/-- **In batches, too, the next rows of an index are all of its rows up to the new cursor.** -/
theorem batchedIndexScan_covers (h : access.Supplies rows)
    (hrows : ∀ row ∈ rows, row < f.cardinality) {order : List Nat} {slice : Slice} {next : Nat}
    (hslice : f.batchedIndexScan access order budget batches = some (slice, next)) :
    ∃ supplied, slice = f.decideRows order supplied ∧ f.Covers rows supplied next := by
  have hquota : 0 < (ceilDiv budget batches).toNat := by
    obtain ⟨hge, -⟩ := ceilDiv_spec budget batches hbatches
    exact Nat.pos_of_mul_pos_left (Nat.lt_of_lt_of_le hpos hge)
  unfold batchedIndexScan at hslice
  split at hslice
  case isFalse => exact absurd hslice nofun
  obtain ⟨rfl, rfl⟩ := Prod.mk.inj (Option.some.inj hslice)
  refine ⟨_, rfl, ?_⟩
  show f.Covers rows (((shares access ((f.cursor : Int) - 1) batches.toNat
    (ceilDiv budget batches).toNat).flatMap Prod.fst).filter (· < suppliedBelow
      (shares access ((f.cursor : Int) - 1) batches.toNat (ceilDiv budget batches).toNat)
        f.cardinality)).mergeSort (suppliedBelow
          (shares access ((f.cursor : Int) - 1) batches.toNat (ceilDiv budget batches).toNat)
            f.cardinality)
  generalize (ceilDiv budget batches).toNat = quota at hquota ⊢
  generalize batches.toNat = n at hbatches ⊢
  -- A share that may have further rows ends at a row of the table behind the cursor.
  have hbounds : ∀ share ∈ shares access ((f.cursor : Int) - 1) n quota, ∀ bound,
      shareBound share = some bound → f.cursor < bound ∧ bound ≤ f.cardinality := by
    intro share hshare bound hbound
    obtain ⟨batch, hbatch, rfl⟩ := List.mem_map.1 hshare
    obtain ⟨row, hrow, rfl⟩ :=
      (supplyBatch_spec h (List.mem_range.1 hbatch) hquota).1 bound hbound
    obtain ⟨hdealt, hgt⟩ := mem_rowsAfter.1 hrow
    obtain ⟨i, hi, -⟩ := Runs.mem_dealt.1 hdealt
    have := hrows row (List.mem_of_getElem? hi)
    omega
  obtain ⟨hgt, hle, hleast⟩ := suppliedBelow_spec hunfinished hbounds
  generalize suppliedBelow (shares access ((f.cursor : Int) - 1) n quota) f.cardinality = next at *
  refine ⟨hgt, hle, pairwise_mergeSort ((nodup_shares h).filter _), fun row => ?_⟩
  rw [List.mem_mergeSort, List.mem_filter, decide_eq_true_eq, ← and_assoc]
  apply and_congr_left
  intro hlt
  -- Below the least bound, the batches together have supplied all rows.
  rw [mem_shares h hquota hbatches hlt hleast, mem_rowsAfter_cursor]

/-- **Looking at the next rows of an index in batches decides a slice.** -/
theorem decides_batchedIndexScan (hindexes : f.HasExactIndexes) (choice : FilterChoice) {p : Nat}
    (hindex : f.indexes[p]? = some (some access)) {slice : Slice} {next : Nat}
    (hslice : f.batchedIndexScan access (f.evaluationOrder choice (some p)) budget batches =
      some (slice, next)) :
    f.Decides slice next := by
  obtain ⟨hp, hsupplies⟩ := hindexes p access hindex
  obtain ⟨supplied, rfl, hcovers⟩ := batchedIndexScan_covers hunfinished hpos hbatches hsupplies
    (fun row hrow => List.mem_range.1 (List.mem_filter.1 hrow).1) hslice
  exact hcovers.decides choice hp

end Index

end TableFilter

end AdaptiveJoin
