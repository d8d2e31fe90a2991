import Mathlib.Data.List.Perm.Basic
import AdaptiveJoin.Proofs.Index.Exact

/-!
# Workers divide the rows of a key

The places of a run are dealt out to the workers in turn, and every row knows the worker that it is
dealt to.  `Runs.IsDivided` says what this is for: every worker finds the next one of its own rows,
every row belongs to one worker, and the scans of all workers are disjoint and answer together what
one scan answers.

* `Represents.mem_dealt_iff`: the place that a row knows tells the worker whose lookups find it.
* `Runs.partition_exact`: the index of any column is divided, for any number of workers.
-/

namespace AdaptiveJoin

open TableFilter (rowsAfter mem_rowsAfter)

namespace Runs

variable {κ : Type} [BEq κ] [LawfulBEq κ] [Hashable κ]

/-- The rows of a key after a given one, as one worker finds them. -/
def shareScan (ix : Runs κ) (key : κ) (workers worker : Nat) (after : Int) : Option (List Nat) :=
  scan (fun last => ix.nextRowInPartition? key last worker workers) after

/-- The lookups of some workers divide the rows of every key between them. -/
structure IsDivided (ix : Runs κ) (keys : Array (Option κ)) (workers : Nat) : Prop where
  /-- A worker finds the least row of its own after the given one. -/
  found : ∀ key after, ∀ worker < workers, ∀ row,
    ix.nextRowInPartition? key after worker workers = some row ↔
      IsLeast {r : Nat | keys[r]? = some (some key) ∧ ix.workerOfRow? r workers = some worker ∧
        after < (r : Int)} row
  /-- It finds nothing only if none of its own rows lies after the given one. -/
  exhausted : ∀ key after, ∀ worker < workers,
    ix.nextRowInPartition? key after worker workers = none ↔
      ∀ r : Nat, keys[r]? = some (some key) → ix.workerOfRow? r workers = some worker →
        (r : Int) ≤ after
  /-- Every row with a key belongs to one worker. -/
  exists_worker : ∀ (row : Nat) (key : κ), keys[row]? = some (some key) →
    ∃! worker, worker < workers ∧ ix.workerOfRow? row workers = some worker
  /-- The scan of a worker ends, and answers each of its own rows once, ascending. -/
  scan_eq : ∀ key after, ∀ worker < workers,
    ∃ rows, ix.shareScan key workers worker after = some rows ∧ rows.Pairwise (· < ·) ∧
      ∀ r, r ∈ rows ↔ keys[r]? = some (some key) ∧ ix.workerOfRow? r workers = some worker ∧
        after < (r : Int)
  /-- Two workers have no row in common, wherever they start from. -/
  disjoint : ∀ key, ∀ worker < workers, ∀ worker' < workers, worker ≠ worker' →
    ∀ after after' rows rows', ix.shareScan key workers worker after = some rows →
      ix.shareScan key workers worker' after' = some rows' → rows.Disjoint rows'
  /-- Together the workers answer what one scan answers, wherever they start from. -/
  union : ∀ key after plain, scan (ix.nextRow? key) after = some plain → ∀ shares : Nat → List Nat,
    (∀ worker < workers, ix.shareScan key workers worker after = some (shares worker)) →
      ((List.range workers).flatMap shares).Perm plain
  /-- If they start from different rows, they leave out the rows before their own start. -/
  mem_union : ∀ key (start : Nat → Int) (shares : Nat → List Nat),
    (∀ worker < workers, ix.shareScan key workers worker (start worker) = some (shares worker)) →
      ∀ r, r ∈ (List.range workers).flatMap shares ↔ keys[r]? = some (some key) ∧
        ∃ worker, ix.workerOfRow? r workers = some worker ∧ start worker < (r : Int)

variable {ix : Runs κ} {keys : Array (Option κ)} {workers : Nat}

/-! ### The worker of a row -/

omit [LawfulBEq κ] in
/-- A row is dealt to the worker of its place. -/
theorem Represents.workerOfRow?_eq (h : ix.Represents keys) (hpos : 0 < workers) {key : κ}
    {i row : Nat} (hrow : (occurrences keys key keys.size)[i]? = some row) :
    ix.workerOfRow? row workers = some (i % workers) := by
  unfold workerOfRow?
  rw [h.place key i row hrow]
  dsimp only
  rw [if_pos ⟨Nat.succ_pos i, hpos⟩, Nat.add_sub_cancel]

/-- **The rows that a worker finds are those that know to belong to it.** -/
theorem Represents.mem_dealt_iff (h : ix.Represents keys) (hpos : 0 < workers) {key : κ}
    {worker row : Nat} :
    row ∈ dealt (occurrences keys key keys.size) worker workers ↔
      keys[row]? = some (some key) ∧ ix.workerOfRow? row workers = some worker := by
  rw [mem_dealt]
  constructor
  · rintro ⟨i, hi, rfl⟩
    exact ⟨mem_occurrences_size.1 (List.mem_of_getElem? hi), h.workerOfRow?_eq hpos hi⟩
  · rintro ⟨hkey, hworker⟩
    obtain ⟨i, hi⟩ := List.mem_iff_getElem?.1 (mem_occurrences_size.2 hkey)
    refine ⟨i, hi, ?_⟩
    rw [h.workerOfRow?_eq hpos hi] at hworker
    exact Option.some.inj hworker

/-- A row with a key belongs to one of the workers. -/
theorem Represents.exists_workerOfRow? (h : ix.Represents keys) (hpos : 0 < workers) {key : κ}
    {row : Nat} (hrow : keys[row]? = some (some key)) :
    ∃ worker < workers, ix.workerOfRow? row workers = some worker := by
  obtain ⟨i, hi⟩ := List.mem_iff_getElem?.1 (mem_occurrences_size.2 hrow)
  exact ⟨i % workers, Nat.mod_lt i hpos, h.workerOfRow?_eq hpos hi⟩

/-! ### The scan of a worker -/

section Scan

variable (h : ix.Represents keys) (hpos : 0 < workers) (key : κ)

include h

omit [LawfulBEq κ] in
theorem Represents.shareScan_eq {worker : Nat} (hw : worker < workers) (after : Int) :
    ix.shareScan key workers worker after =
      some (rowsAfter (dealt (occurrences keys key keys.size) worker workers) after) := by
  have hascending := pairwise_occurrences keys key keys.size
  apply scan_eq_rowsAfter (pairwise_dealt hascending worker workers)
  intro last
  exact nextRowInPartition?_eq h key last hw

include hpos

/-- A worker answers its own rows after the start of its scan. -/
theorem Represents.mem_shareScan {worker : Nat} (hw : worker < workers) {after : Int}
    {rows : List Nat} (hrows : ix.shareScan key workers worker after = some rows) {r : Nat} :
    r ∈ rows ↔ keys[r]? = some (some key) ∧ ix.workerOfRow? r workers = some worker ∧
      after < (r : Int) := by
  rw [h.shareScan_eq key hw after, Option.some.injEq] at hrows
  rw [← hrows, mem_rowsAfter, h.mem_dealt_iff hpos, and_assoc]

/-- All workers together answer the rows after the start of the scan of their worker. -/
theorem Represents.mem_flatMap_shares (start : Nat → Int) {shares : Nat → List Nat}
    (hshares : ∀ worker < workers,
      ix.shareScan key workers worker (start worker) = some (shares worker)) {r : Nat} :
    r ∈ (List.range workers).flatMap shares ↔ keys[r]? = some (some key) ∧
      ∃ worker, ix.workerOfRow? r workers = some worker ∧ start worker < (r : Int) := by
  rw [List.mem_flatMap]
  constructor
  · rintro ⟨worker, hworker, hr⟩
    have hw := List.mem_range.1 hworker
    obtain ⟨hkey, hworker, hlt⟩ := (h.mem_shareScan hpos key hw (hshares worker hw)).1 hr
    exact ⟨hkey, worker, hworker, hlt⟩
  · rintro ⟨hkey, worker, hworker, hlt⟩
    -- The worker that the row knows is one of the workers.
    obtain ⟨worker', hw, hworker'⟩ := h.exists_workerOfRow? hpos hkey
    obtain rfl := Option.some.inj (hworker.symm.trans hworker')
    refine ⟨worker, List.mem_range.2 hw, ?_⟩
    exact (h.mem_shareScan hpos key hw (hshares worker hw)).2 ⟨hkey, hworker, hlt⟩

/-- No row belongs to two workers. -/
theorem Represents.disjoint_shareScan {worker worker' : Nat} (hw : worker < workers)
    (hw' : worker' < workers) (hne : worker ≠ worker') {after after' : Int} {rows rows' : List Nat}
    (hrows : ix.shareScan key workers worker after = some rows)
    (hrows' : ix.shareScan key workers worker' after' = some rows') : rows.Disjoint rows' := by
  intro r hr hr'
  have hworker := ((h.mem_shareScan hpos key hw hrows).1 hr).2.1
  have hworker' := ((h.mem_shareScan hpos key hw' hrows').1 hr').2.1
  exact hne (Option.some.inj (hworker.symm.trans hworker'))

/-- From one start, all workers together answer what one scan answers. -/
theorem Represents.flatMap_shares_perm {after : Int} {plain : List Nat}
    (hplain : scan (ix.nextRow? key) after = some plain) {shares : Nat → List Nat}
    (hshares : ∀ worker < workers, ix.shareScan key workers worker after = some (shares worker)) :
    ((List.range workers).flatMap shares).Perm plain := by
  have hascending := pairwise_occurrences keys key keys.size
  rw [scan_eq_rowsAfter hascending (nextRow?_eq h key), Option.some.injEq] at hplain
  have hnodup : ((List.range workers).flatMap shares).Nodup := by
    refine List.nodup_flatMap.2 ⟨fun worker hworker => ?_, ?_⟩
    · have hw := List.mem_range.1 hworker
      have hrows := hshares worker hw
      rw [h.shareScan_eq key hw, Option.some.injEq] at hrows
      rw [← hrows]
      exact ((pairwise_dealt hascending worker workers).filter _).imp Nat.ne_of_lt
    · refine List.nodup_range.imp_of_mem fun {worker worker'} hworker hworker' hne => ?_
      have hw := List.mem_range.1 hworker
      have hw' := List.mem_range.1 hworker'
      exact h.disjoint_shareScan hpos key hw hw' hne (hshares worker hw) (hshares worker' hw')
  -- Neither list repeats a row, so that it is enough to compare their rows.
  rw [List.perm_ext_iff_of_nodup hnodup (hplain ▸ (hascending.filter _).imp Nat.ne_of_lt)]
  intro r
  rw [h.mem_flatMap_shares hpos key (fun _ => after) hshares, ← hplain, mem_rowsAfter,
    mem_occurrences_size]
  constructor
  · rintro ⟨hkey, -, -, hlt⟩
    exact ⟨hkey, hlt⟩
  · rintro ⟨hkey, hlt⟩
    obtain ⟨worker, -, hworker⟩ := h.exists_workerOfRow? hpos hkey
    exact ⟨hkey, worker, hworker, hlt⟩

end Scan

/-! ### Any number of workers -/

/-- **Any number of workers divide the rows of every key of a column.** -/
theorem partition_exact {column : String} (h : ofKeys column keys = .ok ix) (hpos : 0 < workers) :
    ix.IsDivided keys workers := by
  have hrep := represents_of_ofKeys h
  have hascending (key : κ) (worker : Nat) :
      (dealt (occurrences keys key keys.size) worker workers).Pairwise (· < ·) :=
    pairwise_dealt (pairwise_occurrences keys key keys.size) worker workers
  constructor
  case found =>
    intro key after worker hw row
    rw [nextRowInPartition?_eq hrep key after hw,
      firstAfter_eq_some_iff_isLeast (hascending key worker)]
    simp only [hrep.mem_dealt_iff hpos, and_assoc]
  case exhausted =>
    intro key after worker hw
    rw [nextRowInPartition?_eq hrep key after hw, firstAfter_eq_none_iff]
    simp only [hrep.mem_dealt_iff hpos, and_imp]
  case exists_worker =>
    intro row key hrow
    -- The place of the row in its run, modulo the workers, tells whose it is.
    obtain ⟨worker, hw, hworker⟩ := hrep.exists_workerOfRow? hpos hrow
    refine ⟨worker, ⟨hw, hworker⟩, ?_⟩
    rintro worker' ⟨-, hworker'⟩
    exact Option.some.inj (hworker'.symm.trans hworker)
  case scan_eq =>
    intro key after worker hw
    have hscan := hrep.shareScan_eq key hw after
    exact ⟨_, hscan, (hascending key worker).filter _, fun _ =>
      hrep.mem_shareScan hpos key hw hscan⟩
  case disjoint =>
    intro key worker hw worker' hw' hne after after' rows rows' hrows hrows'
    exact hrep.disjoint_shareScan hpos key hw hw' hne hrows hrows'
  case union =>
    intro key after plain hplain shares hshares
    exact hrep.flatMap_shares_perm hpos key hplain hshares
  case mem_union =>
    intro key start shares hshares r
    exact hrep.mem_flatMap_shares hpos key start hshares

/-- Two workers divide the three rows of a key. -/
theorem partition_exact_sample : ∃ ix : Runs Int64, ofKeys "x" keysSample = .ok ix ∧ 0 < 2 ∧
    ix.IsDivided keysSample 2 ∧ ix.nextRowInPartition? 5 0 0 2 = some 6 ∧
      ix.nextRowInPartition? 5 0 1 2 = some 3 ∧ ix.shareScan 5 2 0 (-1) = some [0, 6] ∧
        ix.shareScan 5 2 1 (-1) = some [3] := by
  obtain ⟨ix, hix, hrep⟩ :=
    ofKeys_eq_ok "x" keysSample (by decide) (fitsWords_of_size_lt (by decide))
  refine ⟨ix, hix, by decide, partition_exact hix (by decide), ?_⟩
  rw [nextRowInPartition?_eq hrep 5 0 (by decide), nextRowInPartition?_eq hrep 5 0 (by decide),
    hrep.shareScan_eq 5 (by decide), hrep.shareScan_eq 5 (by decide)]
  decide

end Runs

end AdaptiveJoin
