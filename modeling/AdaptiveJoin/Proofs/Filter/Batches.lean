import AdaptiveJoin.Proofs.Filter.Episodes
import AdaptiveJoin.Proofs.Filter.Sequences

/-!
# Slices that are split into batches

A slice is decided alike in any number of batches: the ranges of the batches are consecutive, make
up the slice, and are decided to the same rows and evaluations as the slice in one piece
(`TableFilter.scan_batches`).  This holds as long as the words of the slice do not overflow
(`TableFilter.ScanFits`), which the sizes in a configuration can rule out
(`TableFilter.scanFits_of_fits`) but its validation does not: a number of batches beyond 32 bits
loses its upper half, and the rows of the lost batches are passed over
(`TableFilter.scan_truncated`).
-/

namespace AdaptiveJoin

/-- The steps of a valid configuration have rows. -/
theorem FilterConfig.rowsOfStep_pos {c : FilterConfig} (h : c.validate = .ok ())
    (batches : UInt64) : 0 < (c.rowsOfStep batches).toNat := by
  have hne : c.rowsPerStep ≠ 0 ∧ c.parallelRowsPerStep ≠ 0 := by
    unfold FilterConfig.validate at h
    split at h
    · exact absurd h (by simp)
    · rename_i hzero
      exact not_or.1 hzero
  have hpos {word : UInt64} (hword : word ≠ 0) : 0 < word.toNat :=
    Nat.pos_of_ne_zero fun hzero => hword (UInt64.toNat_inj.1 hzero)
  unfold FilterConfig.rowsOfStep
  split
  · exact hpos hne.2
  · exact hpos hne.1

/-- The numbers of batches that a configuration offers. -/
theorem FilterTree.mem_batchActions {c : FilterConfig} {a : Nat}
    (h : a < c.rowParallelActions.toNat) :
    .batches (UInt64.ofNat a * c.rowParallelDelta) ∈ batchActions c :=
  Array.mem_map.2 ⟨a, Array.mem_range.2 h, rfl⟩

namespace TableFilter

variable {f : TableFilter}

/-- The first row of the next slice. -/
def firstRow (f : TableFilter) : UInt32 := UInt32.ofNat f.cursor

/-- The end of the next slice of some rows. -/
def endRow (f : TableFilter) (budget : UInt64) : UInt32 :=
  sliceEnd f.firstRow (UInt32.ofNat f.cardinality) budget

/-- The words of a slice in batches do not overflow: neither the end of its budget, nor the number
of its batches, nor the first row of its last batch. -/
structure ScanFits (f : TableFilter) (budget batches : UInt64) : Prop where
  sum : f.cursor + budget.toNat < 2 ^ 64
  count : batches.toNat < 2 ^ 32
  product : (batches.toNat - 1) * (chunkSize f.firstRow (f.endRow budget) batches).toNat < 2 ^ 32

/-- A call without an index decides a slice in turn, unless the table is finished. -/
theorem execute_of_access?_eq_none {choice : FilterChoice} (h : choice.access? = none)
    (budget : UInt64) : (f.execute budget choice).2 =
      if f.isFinished then f
      else
        let (slice, next) :=
          f.scan (f.evaluationOrder choice none) (max budget 1) (max choice.batches 1)
        f.decided slice next f.lookup := by
  unfold FilterChoice.access? at h
  unfold execute
  split
  · rfl
  · simp only [h]
    rfl

/-- **A slice in batches is the slice in one piece.**  If its words do not overflow, a step of a
valid configuration ends after its rows or at the end of the table, the ranges of its batches are
consecutive and hold every row of the step once, and the filter after the step is the one after a
step in one batch. -/
theorem scan_batches {config : FilterConfig} (hvalid : config.validate = .ok ())
    (hlimit : f.cardinality < rowLimit) (hcursor : f.cursor ≤ f.cardinality) {batches : UInt64}
    (hfits : f.ScanFits (config.rowsOfStep batches) batches) :
    let budget := config.rowsOfStep batches
    let stop := (f.endRow budget).toNat
    let ranges := sliceRanges f.firstRow (f.endRow budget) batches
    stop = min (f.cursor + budget.toNat) f.cardinality ∧
    (f.cursor < f.cardinality → f.cursor < stop) ∧
    Consecutive f.cursor stop ranges ∧
    ranges.flatMap rowsOfRange = List.range' f.cursor (stop - f.cursor) ∧
    (∀ order, f.scan order budget batches = f.scan order budget 1) ∧
    ∀ choice : FilterChoice, choice.access? = none →
      (f.execute budget { choice with batches := batches }).2 =
        (f.execute budget { choice with batches := 1 }).2 := by
  intro budget stop ranges
  have hlimit : f.cardinality < 2 ^ 32 := Nat.lt_trans hlimit (by decide)
  obtain ⟨hfirst, hstop⟩ := toNat_sliceEnd_cursor hcursor hlimit hfits.sum
  have hstop : stop = min (f.cursor + budget.toNat) f.cardinality := hstop
  have hpos : 0 < budget.toNat := FilterConfig.rowsOfStep_pos hvalid batches
  have hle : f.firstRow.toNat ≤ (f.endRow budget).toNat := by
    rw [firstRow, hfirst, show (f.endRow budget).toNat = stop from rfl, hstop]
    omega
  have hconsecutive : Consecutive f.cursor stop ranges :=
    hfirst ▸ consecutive_sliceRanges hle hfits.count hfits.product
  -- The ranges of the batches and the one range of one batch have the same rows.
  have hscan (order : List Nat) : f.scan order budget batches = f.scan order budget 1 := by
    have hone : (sliceRanges f.firstRow (f.endRow budget) 1).flatMap rowsOfRange =
        List.range' f.cursor (stop - f.cursor) := by
      show List.range' f.firstRow.toNat (stop - f.firstRow.toNat) ++ [] = _
      rw [List.append_nil, firstRow, hfirst]
    rw [scan_eq, scan_eq]
    show (f.decideRows order (ranges.flatMap rowsOfRange), stop) =
      (f.decideRows order ((sliceRanges f.firstRow (f.endRow budget) 1).flatMap rowsOfRange), stop)
    rw [hconsecutive.flatMap_eq, hone]
  refine ⟨hstop, fun hlt => by omega, hconsecutive, hconsecutive.flatMap_eq, hscan,
    fun choice haccess => ?_⟩
  -- A call raises its budget and its number of batches to 1, and then scans.
  have hbudget : max budget 1 = budget := by
    rw [← UInt64.toNat_inj, toNat_max_word, UInt64.toNat_one]
    omega
  have hchoice (batches : UInt64) : ({ choice with batches := batches }).access? = none := haccess
  rw [execute_of_access?_eq_none (hchoice batches), execute_of_access?_eq_none (hchoice 1), hbudget]
  have horder : f.evaluationOrder { choice with batches := batches } none =
      f.evaluationOrder { choice with batches := 1 } none := rfl
  by_cases hzero : batches = 0
  · -- No batches are one batch.
    rw [hzero]
    rfl
  · have hmax : max batches 1 = batches := by
      rw [← UInt64.toNat_inj, UInt64.toNat_zero] at hzero
      rw [← UInt64.toNat_inj, toNat_max_word, UInt64.toNat_one]
      omega
    dsimp only
    rw [hmax, horder, hscan]
    rfl

/-- **A configuration that fits the table rules overflows out**, whatever number of batches it
offers. -/
theorem scanFits_of_fits {config : FilterConfig} (hfits : config.Fits f.cardinality)
    (hlimit : f.cardinality < rowLimit) (hunfinished : f.cursor < f.cardinality) {batches : UInt64}
    (haction : .batches batches ∈ FilterTree.batchActions config) :
    f.ScanFits (config.rowsOfStep batches) batches := by
  have hlimit : f.cardinality < 2 ^ 32 := Nat.lt_trans hlimit (by decide)
  have hcount := FilterTree.toNat_le_of_mem_batchActions haction
  have hbatches := hfits.batches
  -- The rows of a step are those for one batch or those for several.
  have hsum : f.cursor + (config.rowsOfStep batches).toNat < 2 ^ 64 := by
    have hrows := hfits.rowsPerStep
    have hparallel := hfits.parallelRowsPerStep
    unfold FilterConfig.rowsOfStep
    split <;> omega
  obtain ⟨hfirst, hstop⟩ := toNat_sliceEnd_cursor (Nat.le_of_lt hunfinished) hlimit hsum
  have hfirst : f.firstRow.toNat = f.cursor := hfirst
  have hstop : (f.endRow (config.rowsOfStep batches)).toNat =
      min (f.cursor + (config.rowsOfStep batches).toNat) f.cardinality := hstop
  exact ⟨hsum, by omega, mul_chunkSize_lt (by omega) (by omega)⟩

/-- A filter of a table of three rows, the first and the last of which it keeps. -/
def sampleFilter : TableFilter := start sampleQuery 0 [0] [none]

theorem scan_batches_sample : ({} : FilterConfig).validate = .ok () ∧
    .batches 4 ∈ FilterTree.batchActions {} ∧
      sampleFilter.scan [0] 10000 4 = sampleFilter.scan [0] 10000 1 := by
  have haction : .batches 4 ∈ FilterTree.batchActions {} :=
    FilterTree.mem_batchActions (a := 2) (by decide)
  have hlimit : sampleFilter.cardinality < rowLimit := by decide
  have hunfinished : sampleFilter.cursor < sampleFilter.cardinality := by decide
  have hvalid : ({} : FilterConfig).validate = .ok () := rfl
  have hfits := scanFits_of_fits (FilterConfig.fits_default (by decide)) hlimit hunfinished haction
  have hbatches := scan_batches hvalid hlimit (Nat.le_of_lt hunfinished) hfits
  exact ⟨hvalid, haction, hbatches.2.2.2.2.1 [0]⟩

/-- A filter of a table of four rows that keeps all of them. -/
def fourRows : TableFilter :=
  let column : Column := ⟨"x", .int #[some 1, some 2, some 3, some 4]⟩
  let query : Query :=
    { Query.ofTables #[⟨"t", #[column], by simp [commonRows]⟩] with
      predicates := #[.ofTables "t.x >= 0" [0] .residual fun tuple =>
        Comparison.ge.truth (column.compareValue (tuple.row 0) (.int 0))] }
  start query 0 [0] [none]

/-- **A number of batches that loses its upper half loses rows.**  A valid configuration offers
2^32 batches, which are none in 32 bits: a step of four rows decides none of them, but the cursor
moves to the end of the table, past the four rows that the step keeps in one piece. -/
theorem scan_truncated :
    let config : FilterConfig :=
      { rowsPerStep := 4
        parallelRowsPerStep := 4
        rowParallelActions := 2
        rowParallelDelta := 4294967296 }
    config.validate = .ok () ∧ .batches 4294967296 ∈ FilterTree.batchActions config ∧
      fourRows.scan [0] (config.rowsOfStep 4294967296) 4294967296 = (⟨[], 0⟩, 4) ∧
      fourRows.scan [0] (config.rowsOfStep 4294967296) 1 = (⟨[0, 1, 2, 3], 4⟩, 4) :=
  ⟨rfl, FilterTree.mem_batchActions (a := 1) (by decide), by decide +kernel, by decide +kernel⟩

end TableFilter

end AdaptiveJoin
