import Mathlib.Order.Bounds.Basic
import AdaptiveJoin.Proofs.Filter.Slices
import AdaptiveJoin.Proofs.Index.Checked

/-!
# Indexes are exact

`Runs.IsExact` says without a word about runs what an index over the keys of a column is for: a
lookup answers the least row of its key after the given one, the counts are those of the column, and
a scan from the start answers every row of a key once, in ascending order, and ends.

* `Runs.ofKeys_exact`: every column of which the rows and the different keys are fewer than
  `2 ^ 32 - 1` together has an index, and the index is exact.
* `scan_eq_rowsAfter`: asking again and again for the row after the last one answers all rows,
  whichever way of asking is taken.
-/

namespace AdaptiveJoin

open TableFilter (rowsAfter rowsAfter_eq_nil rowsAfter_eq_cons rowsAfter_start mem_rowsAfter)

/-! ### The least row -/

/-- The first row after a given one is the least of them. -/
theorem firstAfter_eq_some_iff_isLeast {rows : List Nat} (hascending : rows.Pairwise (· < ·))
    {after : Int} {row : Nat} :
    firstAfter rows after = some row ↔ IsLeast {r : Nat | r ∈ rows ∧ after < (r : Int)} row := by
  rw [firstAfter_eq_some_iff hascending]
  constructor
  · rintro ⟨hmem, hlt, hleast⟩
    exact ⟨⟨hmem, hlt⟩, fun r hr => hleast r hr.1 hr.2⟩
  · rintro ⟨⟨hmem, hlt⟩, hleast⟩
    exact ⟨hmem, hlt, fun r hr hr' => hleast ⟨hr, hr'⟩⟩

/-! ### Scans -/

/-- The rows that are found by asking for the next row again and again, each time after the row
found last, `a` at first.  `none` stands for a scan without end. -/
def scan (next : Int → Option Nat) (a : Int) : Option (List Nat) :=
  match next a with
  | none => some []
  | some row => do
    let rows ← (scan (a := row)) next
    return row :: rows
partial_fixpoint

theorem scan_of_none {next : Int → Option Nat} {after : Int} (h : next after = none) :
    scan next after = some [] := by
  rw [scan, h]

theorem scan_of_some {next : Int → Option Nat} {after : Int} {row : Nat}
    (h : next after = some row) : scan next after = (scan next row).map (row :: ·) := by
  rw [scan, h, Option.map_eq_bind]
  rfl

/-- **A scan of ascending rows answers all of them that lie after its start.** -/
theorem scan_eq_rowsAfter {rows : List Nat} (hascending : rows.Pairwise (· < ·))
    {next : Int → Option Nat} (hnext : ∀ after, next after = firstAfter rows after) (after : Int) :
    scan next after = some (rowsAfter rows after) := by
  -- Every row found leaves fewer rows to come.
  generalize hlen : (rowsAfter rows after).length = n
  induction n generalizing after with
  | zero =>
    have hnil := List.length_eq_zero_iff.1 hlen
    have hnone : next after = none := by
      rw [hnext, firstAfter_eq_none_iff]
      intro row hrow
      by_contra hlt
      have hmem := mem_rowsAfter.2 ⟨hrow, not_le.1 hlt⟩
      rw [hnil] at hmem
      exact absurd hmem List.not_mem_nil
    rw [scan_of_none hnone, hnil]
  | succ n ih =>
    cases hfirst : firstAfter rows after with
    | none =>
      rw [rowsAfter_eq_nil hfirst] at hlen
      exact absurd hlen (by simp)
    | some row =>
      have hcons := rowsAfter_eq_cons hascending hfirst
      rw [hcons, List.length_cons, Nat.add_right_cancel_iff] at hlen
      rw [scan_of_some ((hnext after).trans hfirst), ih row hlen, hcons, Option.map_some]

/-! ### Different keys -/

section DistinctKeys

variable {κ : Type} [BEq κ]

/-- The different keys of a column. -/
def distinctKeys (keys : Array (Option κ)) : List κ := (keys.toList.filterMap id).eraseDups

variable [LawfulBEq κ]

theorem nodup_eraseDups : ∀ ks : List κ, ks.eraseDups.Nodup
  | [] => List.nodup_nil
  | k :: ks => by
    rw [List.eraseDups_cons, List.nodup_cons]
    refine ⟨fun hk => ?_, nodup_eraseDups (ks.filter fun k' => !k' == k)⟩
    rw [List.mem_eraseDups, List.mem_filter] at hk
    exact absurd hk.2 (by simp)
termination_by ks => ks.length
decreasing_by exact Nat.lt_succ_of_le (List.length_filter_le _ _)

theorem nodup_distinctKeys (keys : Array (Option κ)) : (distinctKeys keys).Nodup :=
  nodup_eraseDups _

theorem mem_distinctKeys {keys : Array (Option κ)} {key : κ} :
    key ∈ distinctKeys keys ↔ some key ∈ keys := by
  unfold distinctKeys
  simp

/-- A column fits if its rows and different keys are few enough. -/
theorem fitsWords_of_distinctKeys {keys : Array (Option κ)}
    (h : keys.size + (distinctKeys keys).length < 2 ^ 32) : FitsWords keys := by
  intro ks hks hmem
  have hcount : keys.countP Option.isSome ≤ keys.size := Array.countP_le_size
  have hlen : ks.length ≤ (distinctKeys keys).length :=
    hks.length_le_of_subset fun key hkey => mem_distinctKeys.2 (hmem key hkey)
  omega

variable [Hashable κ]

/-- A layout has one run for every key. -/
theorem Layout.IsListed.size_offsets {l : Layout κ} {keys : Array (Option κ)}
    (h : l.IsListed keys keys.size) : l.offsets.size = (distinctKeys keys).length := by
  have hmem (key : κ) : key ∈ l.offsets.keys ↔ key ∈ distinctKeys keys := by
    rw [Std.HashMap.mem_keys, Std.HashMap.mem_iff_contains, h.contains, mem_distinctKeys]
    constructor
    · intro hkey
      obtain ⟨row, hrow⟩ := List.exists_mem_of_ne_nil _ ((h.mem_order key).1 hkey)
      exact Array.mem_of_getElem? (mem_occurrences.1 hrow).2
    · exact h.mem_order_of_mem key
  -- Both lists hold the different keys, each of them once.
  rw [← Std.HashMap.length_keys]
  exact ((List.perm_ext_iff_of_nodup Std.HashMap.nodup_keys (nodup_distinctKeys keys)).2
    hmem).length_eq

end DistinctKeys

/-! ### Exact indexes -/

namespace Runs

variable {κ : Type} [BEq κ] [LawfulBEq κ] [Hashable κ]

/-- What an index answers is what a look at all rows of the column would answer. -/
structure IsExact (ix : Runs κ) (keys : Array (Option κ)) : Prop where
  /-- A row that is found is the least row of the key after the given one. -/
  found : ∀ key after row, ix.nextRow? key after = some row ↔
    IsLeast {r : Nat | keys[r]? = some (some key) ∧ after < (r : Int)} row
  /-- A lookup finds nothing only if no row of the key lies after the given one. -/
  exhausted : ∀ key after, ix.nextRow? key after = none ↔
    ∀ r : Nat, keys[r]? = some (some key) → (r : Int) ≤ after
  /-- The count of a key is the number of its rows. -/
  count_eq : ∀ key, ix.count key = keys.count (some key)
  /-- All rows with a key are indexed. -/
  nrIndexed_eq : ix.nrIndexed = keys.countP Option.isSome
  /-- The number of keys is the number of different keys. -/
  nrDistinct_eq : ix.nrDistinct = (distinctKeys keys).length
  /-- A scan from the start ends, and answers every row of the key once, ascending. -/
  scan_eq : ∀ key, ∃ rows, scan (ix.nextRow? key) (-1) = some rows ∧ rows.Pairwise (· < ·) ∧
    ∀ r, r ∈ rows ↔ keys[r]? = some (some key)

variable {ix : Runs κ} {keys : Array (Option κ)}

omit [LawfulBEq κ] [Hashable κ] in
/-- The rows of a key are its occurrences. -/
theorem keyCount_eq_count (keys : Array (Option κ)) (key : κ) :
    keyCount keys key = keys.count (some key) :=
  length_filter_getElem? keys (· == some (some key))

omit [Hashable κ] in
theorem mem_occurrences_size {key : κ} {row : Nat} :
    row ∈ occurrences keys key keys.size ↔ keys[row]? = some (some key) := by
  rw [mem_occurrences, and_iff_right_iff_imp]
  exact fun h => (Array.getElem?_eq_some_iff.1 h).1

/-- **An index that represents a column is exact.** -/
theorem Represents.isExact (h : ix.Represents keys)
    (hdistinct : ix.nrDistinct = (distinctKeys keys).length) : ix.IsExact keys where
  found key after row := by
    have hascending := pairwise_occurrences keys key keys.size
    rw [nextRow?_eq h, firstAfter_eq_some_iff_isLeast hascending]
    simp only [mem_occurrences_size]
  exhausted key after := by
    rw [nextRow?_eq h, firstAfter_eq_none_iff]
    simp only [mem_occurrences_size]
  count_eq key := (h.count_eq key).trans (keyCount_eq_count keys key)
  nrIndexed_eq := h.nrIndexed_eq
  nrDistinct_eq := hdistinct
  scan_eq key := by
    have hascending := pairwise_occurrences keys key keys.size
    refine ⟨occurrences keys key keys.size, ?_, hascending, fun r => mem_occurrences_size⟩
    -- A scan asks for the next row again and again, and so goes through all of them in order.
    rw [scan_eq_rowsAfter hascending (nextRow?_eq h key), rowsAfter_start]

/-- An index has one run for every key. -/
theorem nrDistinct_of_ofKeys {column : String} (h : ofKeys column keys = .ok ix) :
    ix.nrDistinct = (distinctKeys keys).length := by
  obtain ⟨rfl, -⟩ := eq_stored_of_ofKeys h
  unfold nrDistinct
  rw [(stored_frame (Layout.ofKeys keys) keys keys.size).2.1]
  exact (Layout.ofKeys_isListed keys).size_offsets

/-- **Every column that fits has an index, and the index is exact.** -/
theorem ofKeys_exact (column : String) (keys : Array (Option κ))
    (hfit : keys.size + (distinctKeys keys).length < 2 ^ 32 - 1) :
    ∃ ix, ofKeys column keys = .ok ix ∧ ix.IsExact keys := by
  have hsize : keys.size < rowLimit := by
    unfold rowLimit
    omega
  obtain ⟨ix, hix, hrep⟩ :=
    ofKeys_eq_ok column keys hsize (fitsWords_of_distinctKeys (by omega))
  exact ⟨ix, hix, hrep.isExact (nrDistinct_of_ofKeys hix)⟩

/-- Three different keys, two of them in turn and one null. -/
def keysSample : Array (Option Int64) := #[some 5, some 3, none, some 5, some (-1), some 3, some 5]

theorem ofKeys_exact_sample :
    keysSample.size + (distinctKeys keysSample).length < 2 ^ 32 - 1 ∧
      ∃ ix, ofKeys "x" keysSample = .ok ix ∧ ix.nextRow? 5 0 = some 3 ∧ ix.nextRow? 3 5 = none ∧
        ix.count 5 = 3 ∧ ix.nrIndexed = 6 ∧ ix.nrDistinct = 3 ∧
        scan (ix.nextRow? 5) (-1) = some [0, 3, 6] := by
  have hfit : keysSample.size + (distinctKeys keysSample).length < 2 ^ 32 - 1 := by decide
  have hlt {r : Nat} {key : Int64} (hr : keysSample[r]? = some (some key)) : r < 7 :=
    (Array.getElem?_eq_some_iff.1 hr).1
  obtain ⟨ix, hix, h⟩ := ofKeys_exact "x" keysSample hfit
  obtain ⟨rows, hscan, hascending, hmem⟩ := h.scan_eq 5
  refine ⟨hfit, ix, hix, ?_, ?_, h.count_eq 5, h.nrIndexed_eq, h.nrDistinct_eq, ?_⟩
  · have hbefore : ∀ r : Nat, r < 3 → ¬(keysSample[r]? = some (some 5) ∧ (0 : Int) < r) := by
      decide
    exact (h.found 5 0 3).2 ⟨by decide, fun r hr => not_lt.1 fun hlt => hbefore r hlt hr⟩
  · have hall : ∀ r : Nat, r < 7 → keysSample[r]? = some (some 3) → (r : Int) ≤ 5 := by decide
    exact (h.exhausted 3 5).2 fun r hr => hall r (hlt hr) hr
  · have hfive : ∀ r < 7, keysSample[r]? = some (some 5) → r ∈ [0, 3, 6] := by decide
    -- The rows of the scan ascend, so they are the list with the same rows.
    rw [hscan, Option.some.injEq]
    apply hascending.eq_of_mem_iff (by decide)
    intro r
    rw [hmem]
    refine ⟨fun hr => hfive r (hlt hr) hr, fun hr => ?_⟩
    have hthree : ∀ r ∈ [0, 3, 6], keysSample[r]? = some (some 5) := by decide
    exact hthree r hr

end Runs

end AdaptiveJoin
