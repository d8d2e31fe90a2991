import AdaptiveJoin.Progress.Offsets
import AdaptiveJoin.Proofs.TableSet

/-!
# Shared offsets and finished shares

`Progress.IsConsistent` is what holds of every progress that workers share: an offset does not
exceed the number of rows, and the finished mask tells the shares whose offset has reached it.  It
holds at the start (`isConsistent_start`) and is kept when offsets are published
(`IsConsistent.publish`).

* `IsConsistent.offset_publish`: publishing raises one offset.
* `IsConsistent.isFinished_iff`: the result is complete once all shares of one table are finished.
* `IsConsistent.covers_snapshot`: a snapshot covers the rows below the offset of their share.
-/

namespace AdaptiveJoin

namespace Progress

/-! ### Masks of shares -/

theorem shareBit_eq {share : Nat} (h : share < maxWorkers) :
    shareBit share = TableSet.bit share := by
  have hmax : share < maxTables := h
  unfold TableSet.bit
  rw [if_pos hmax, shareBit]

/-- The finished shares of a table are the members of a set. -/
theorem isShareFinished_eq_contains (p : Progress) (table : Nat) {share : Nat}
    (h : share < maxWorkers) :
    p.isShareFinished table share = (⟨p.finishedMask table⟩ : TableSet).contains share := by
  unfold isShareFinished
  unfold TableSet.contains
  rw [shareBit_eq h]

theorem allShares_eq (workers : Nat) : allShares workers = (TableSet.all workers).mask := by
  unfold allShares
  unfold TableSet.all
  show (if workers < maxTables then _ else _) = _
  split <;> rfl

/-- A table is finished iff all its shares are. -/
theorem isTableFinished_iff {p : Progress} (h : p.workers ≤ maxWorkers) (table : Nat) :
    p.isTableFinished table = true ↔ ∀ share < p.workers, p.isShareFinished table share = true := by
  rw [isTableFinished, beq_iff_eq, allShares_eq,
    TableSet.and_mask_eq_iff (s := ⟨p.finishedMask table⟩)]
  have hmax : maxWorkers = maxTables := rfl
  constructor
  · intro hall share hshare
    rw [isShareFinished_eq_contains p table (by omega)]
    apply hall share
    rw [TableSet.contains_all, decide_eq_true_eq]
    exact ⟨hshare, by omega⟩
  · intro hall share hshare
    rw [TableSet.contains_all, decide_eq_true_eq] at hshare
    rw [← isShareFinished_eq_contains p table (by omega)]
    exact hall share hshare.1

/-- The shares finished at the start are those without rows. -/
theorem contains_initialMask (cardinality : Nat) {workers : Nat} (h : workers ≤ maxWorkers)
    (share : Nat) :
    (⟨initialMask workers cardinality⟩ : TableSet).contains share =
      decide (share < workers ∧ cardinality ≤ share) := by
  have hmax : maxWorkers = maxTables := rfl
  induction workers with
  | zero => exact TableSet.contains_empty share
  | succ workers ih =>
    specialize ih (by omega)
    rw [initialMask, List.range_succ, List.foldl_append, ← initialMask, List.foldl_cons,
      List.foldl_nil]
    split
    · rw [shareBit_eq (by omega)]
      have hinsert := TableSet.contains_insert ⟨initialMask workers cardinality⟩ workers share
      unfold TableSet.insert at hinsert
      rw [ih, ← Bool.decide_or] at hinsert
      rw [hinsert, decide_eq_decide]
      omega
    · rw [ih, decide_eq_decide]
      omega

/-! ### Consistent progress -/

/-- Offsets stay within the table, and the finished shares are those that have reached its end. -/
structure IsConsistent (p : Progress) : Prop where
  workers_pos : 0 < p.workers
  workers_le : p.workers ≤ maxWorkers
  size_offsets : p.offsets.size = p.nrTables * p.workers
  size_finished : p.finished.size = p.nrTables
  offset_le : ∀ table < p.nrTables, ∀ share < p.workers,
    p.offset table share ≤ p.cardinality table
  isShareFinished_iff : ∀ table < p.nrTables, ∀ share < p.workers,
    (p.isShareFinished table share = true ↔ p.offset table share = p.cardinality table)

/-- The slots of different shares are different. -/
theorem slot_inj {p : Progress} {table share table' share' : Nat} (h : share < p.workers)
    (h' : share' < p.workers) :
    p.slot table share = p.slot table' share' ↔ table = table' ∧ share = share' := by
  constructor
  · intro heq
    have hdiv := congrArg (· / p.workers) heq
    have hmod := congrArg (· % p.workers) heq
    simp only [slot, Nat.mul_add_mod_self_right, Nat.mod_eq_of_lt h, Nat.mod_eq_of_lt h'] at hmod
    simp only [slot, Nat.mul_comm _ p.workers, Nat.mul_add_div (show 0 < p.workers by omega),
      Nat.div_eq_of_lt h, Nat.div_eq_of_lt h', Nat.add_zero] at hdiv
    exact ⟨hdiv, hmod⟩
  · rintro ⟨rfl, rfl⟩
    rfl

theorem slot_lt {p : Progress} {table share : Nat} (ht : table < p.nrTables)
    (hs : share < p.workers) : p.slot table share < p.nrTables * p.workers := by
  have := Nat.mul_le_mul_right p.workers (show table + 1 ≤ p.nrTables by omega)
  rw [Nat.add_mul] at this
  unfold slot
  omega

/-! ### The start -/

/-- The blocks of a list that is put together from blocks of one length. -/
theorem getElem?_flatMap_blocks {α β : Type} (xs : List α) (f : α → List β) {width : Nat}
    (h : ∀ x, (f x).length = width) (i : Nat) {j : Nat} (hj : j < width) :
    (xs.flatMap f)[i * width + j]? = xs[i]?.bind fun x => (f x)[j]? := by
  induction xs generalizing i with
  | nil => simp
  | cons x xs ih =>
    rw [List.flatMap_cons]
    cases i with
    | zero =>
      rw [List.getElem?_append_left (by rw [h]; omega)]
      simp
    | succ i =>
      rw [List.getElem?_append_right (by rw [h, Nat.add_mul]; omega), h,
        show (i + 1) * width + j - width = i * width + j by rw [Nat.add_mul]; omega, ih]
      simp

theorem offset_start (cardinalities : Array Nat) (workers : Nat) (table : Nat) {share : Nat}
    (h : share < (start cardinalities workers).workers) :
    (start cardinalities workers).offset table share =
      initialOffset ((start cardinalities workers).cardinality table) share := by
  have hblock := getElem?_flatMap_blocks cardinalities.toList
    (fun n => ((Array.range (start cardinalities workers).workers).map (initialOffset n)).toList)
    (fun n => show _ = (start cardinalities workers).workers by simp) table h
  have hoffsets : (start cardinalities workers).offsets.toList = cardinalities.toList.flatMap
      (fun n => ((Array.range (start cardinalities workers).workers).map
        (initialOffset n)).toList) := by
    unfold start
    rw [Array.toList_flatMap]
  unfold offset
  unfold slot
  rw [← Array.getElem?_toList, hoffsets, hblock, cardinality]
  show _ = initialOffset (cardinalities[table]?.getD 0) share
  rw [Array.getElem?_toList]
  cases cardinalities[table]? with
  | none => simp [initialOffset]
  | some n => simp [h]

/-- **The progress at the start is consistent.** -/
theorem isConsistent_start (cardinalities : Array Nat) (workers : Nat) :
    (start cardinalities workers).IsConsistent := by
  have hle : (start cardinalities workers).workers ≤ maxWorkers := by
    simp only [start, maxWorkers]
    omega
  refine ⟨?_, hle, ?_, ?_, fun table ht share hs => ?_, fun table ht share hs => ?_⟩
  · simp only [start]
    omega
  · rw [← Array.length_toList, start, Array.toList_flatMap, List.length_flatMap]
    simp [nrTables, List.map_const']
  · simp [start, nrTables]
  · rw [offset_start _ _ _ hs, initialOffset]
    split <;> omega
  · have hcard : (start cardinalities workers).finishedMask table =
        initialMask (start cardinalities workers).workers
          ((start cardinalities workers).cardinality table) := by
      have ht' : table < cardinalities.size := ht
      simp [finishedMask, cardinality, start, ht']
    rw [isShareFinished_eq_contains _ _ (by omega), hcard, contains_initialMask _ hle,
      decide_eq_true_eq, offset_start _ _ _ hs, initialOffset]
    split <;> omega

/-! ### Publishing -/

section Publish

variable {p : Progress} {table share : Nat}

@[simp]
theorem publish_workers (p : Progress) (table share offset : Nat) :
    (p.publish table share offset).2.workers = p.workers := by
  simp only [publish]
  split <;> rfl

@[simp]
theorem publish_cardinalities (p : Progress) (table share offset : Nat) :
    (p.publish table share offset).2.cardinalities = p.cardinalities := by
  simp only [publish]
  split <;> rfl

@[simp]
theorem publish_nrTables (p : Progress) (table share offset : Nat) :
    (p.publish table share offset).2.nrTables = p.nrTables := by
  rw [nrTables, publish_cardinalities, nrTables]

@[simp]
theorem publish_cardinality (p : Progress) (table share offset other : Nat) :
    (p.publish table share offset).2.cardinality other = p.cardinality other := by
  rw [cardinality, publish_cardinalities, cardinality]

theorem publish_offsets (p : Progress) (table share offset : Nat) :
    (p.publish table share offset).2.offsets =
      p.offsets.modify (p.slot table share) (max · (min offset (p.cardinality table))) := by
  simp only [publish]
  split <;> rfl

theorem publish_finished (p : Progress) (table share offset : Nat) :
    (p.publish table share offset).2.finished =
      if offset < p.cardinality table then p.finished
      else p.finished.modify table (· ||| shareBit share) := by
  simp only [publish]
  by_cases h : offset < p.cardinality table
  · rw [if_pos h, if_pos (by omega)]
  · rw [if_neg h, if_neg (by omega)]

/-- **Publishing raises the offset of one share.** -/
theorem IsConsistent.offset_publish (h : p.IsConsistent) (ht : table < p.nrTables)
    (hs : share < p.workers) (offset table' : Nat) {share' : Nat} (hs' : share' < p.workers) :
    (p.publish table share offset).2.offset table' share' =
      if table' = table ∧ share' = share then
        max (p.offset table share) (min offset (p.cardinality table))
      else p.offset table' share' := by
  have hslot : (p.publish table share offset).2.slot table' share' = p.slot table' share' := by
    rw [slot, publish_workers, slot]
  rw [Progress.offset, hslot, publish_offsets, Array.getElem?_modify]
  by_cases heq : table' = table ∧ share' = share
  · obtain ⟨rfl, rfl⟩ := heq
    have hlt : p.slot table' share' < p.offsets.size := h.size_offsets ▸ slot_lt ht hs
    simp [Progress.offset, hlt]
  · -- Another table or share has another slot.
    have hne : p.slot table share ≠ p.slot table' share' := fun hslot =>
      heq (by rw [slot_inj hs hs'] at hslot; exact ⟨hslot.1.symm, hslot.2.symm⟩)
    rw [if_neg hne, if_neg heq, Progress.offset]

/-- No publication ever lowers an offset. -/
theorem offset_le_publish (p : Progress) (table share offset table' share' : Nat) :
    p.offset table' share' ≤ (p.publish table share offset).2.offset table' share' := by
  have hslot : (p.publish table share offset).2.slot table' share' = p.slot table' share' := by
    rw [slot, publish_workers, slot]
  unfold Progress.offset
  rw [hslot, publish_offsets, Array.getElem?_modify]
  split
  · cases p.offsets[p.slot table' share']? with
    | none => exact Nat.le_refl _
    | some old => exact Nat.le_max_left _ _
  · exact Nat.le_refl _

/-- Publishing the number of rows finishes a share, and nothing else does. -/
theorem IsConsistent.isShareFinished_publish (h : p.IsConsistent) (ht : table < p.nrTables)
    (hs : share < p.workers) (offset table' : Nat) {share' : Nat} (hs' : share' < p.workers) :
    (p.publish table share offset).2.isShareFinished table' share' =
      (p.isShareFinished table' share' ||
        decide (table' = table ∧ share' = share ∧ p.cardinality table ≤ offset)) := by
  have hle := h.workers_le
  rw [isShareFinished_eq_contains _ _ (by omega), isShareFinished_eq_contains _ _ (by omega),
    finishedMask, publish_finished, finishedMask]
  split
  · rename_i hlt
    have : ¬(table' = table ∧ share' = share ∧ p.cardinality table ≤ offset) := by omega
    -- The offset does not reach the end, so no share is finished.
    simp [this]
  · rename_i hge
    rw [Array.getElem?_modify, shareBit_eq (by omega)]
    -- The bit of the share is set in the mask of its table.
    by_cases heq : table' = table
    · subst heq
      have hlt : table' < p.finished.size := h.size_finished ▸ ht
      have hinsert := TableSet.contains_insert ⟨p.finished[table']⟩ share share'
      unfold TableSet.insert at hinsert
      simp only [hlt, getElem?_pos, if_true, Option.map_some, Option.getD_some, hinsert, true_and]
      congr 1
      rw [decide_eq_decide]
      have : maxWorkers = maxTables := rfl
      omega
    · have : ¬(table' = table ∧ share' = share ∧ p.cardinality table ≤ offset) := by omega
      rw [if_neg (Ne.symm heq)]
      simp [this]

/-- **Publishing keeps progress consistent.** -/
theorem IsConsistent.publish (h : p.IsConsistent) (ht : table < p.nrTables) (hs : share < p.workers)
    (offset : Nat) : (p.publish table share offset).2.IsConsistent := by
  refine ⟨?_, ?_, ?_, ?_, fun table' ht' share' hs' => ?_, fun table' ht' share' hs' => ?_⟩
  · rw [publish_workers]
    exact h.workers_pos
  · rw [publish_workers]
    exact h.workers_le
  · rw [publish_offsets, Array.size_modify, publish_nrTables, publish_workers]
    exact h.size_offsets
  · rw [publish_finished, publish_nrTables, ← h.size_finished]
    split
    · rfl
    · rw [Array.size_modify]
  · rw [publish_nrTables] at ht'
    rw [publish_workers] at hs'
    rw [h.offset_publish ht hs offset table' hs', publish_cardinality]
    have hle := h.offset_le table' ht' share' hs'
    split
    · -- The offset that is raised stays within the table.
      rename_i heq
      obtain ⟨rfl, rfl⟩ := heq
      omega
    · exact hle
  · rw [publish_nrTables] at ht'
    rw [publish_workers] at hs'
    rw [h.isShareFinished_publish ht hs offset table' hs', h.offset_publish ht hs offset table' hs',
      publish_cardinality, Bool.or_eq_true, decide_eq_true_eq, h.isShareFinished_iff table' ht'
        share' hs']
    have hle := h.offset_le table' ht' share' hs'
    split
    · -- The bit is set exactly if the greater of the two offsets is the number of rows.
      rename_i heq
      obtain ⟨rfl, rfl⟩ := heq
      omega
    · rename_i hne
      exact ⟨fun hor => hor.elim id fun hc => absurd ⟨hc.1, hc.2.1⟩ hne, Or.inl⟩

end Publish

/-! ### Complete results -/

/-- **The progress is finished iff all shares of some table have reached its end.** -/
theorem IsConsistent.isFinished_iff {p : Progress} (h : p.IsConsistent) :
    p.isFinished = true ↔
      ∃ table < p.nrTables, ∀ share < p.workers, p.offset table share = p.cardinality table := by
  unfold isFinished
  rw [List.any_eq_true]
  constructor
  · rintro ⟨table, ht, hfin⟩
    rw [List.mem_range] at ht
    rw [isTableFinished_iff h.workers_le] at hfin
    exact ⟨table, ht, fun share hs => (h.isShareFinished_iff table ht share hs).1 (hfin share hs)⟩
  · rintro ⟨table, ht, hall⟩
    refine ⟨table, List.mem_range.2 ht, ?_⟩
    rw [isTableFinished_iff h.workers_le]
    intro share hs
    exact (h.isShareFinished_iff table ht share hs).2 (hall share hs)

end Progress

/-! ### Snapshots -/

namespace Snapshot

theorem foldl_min_le (f : Nat → Nat) (shares : List Nat) (first : Nat) :
    shares.foldl (fun m share => min m (f share)) first ≤ first ∧
      ∀ share ∈ shares, shares.foldl (fun m share => min m (f share)) first ≤ f share := by
  induction shares generalizing first with
  | nil => simp
  | cons s ss ih =>
    obtain ⟨hfirst, hmem⟩ := ih (min first (f s))
    rw [List.foldl_cons]
    refine ⟨by omega, fun share hshare => ?_⟩
    rcases List.mem_cons.1 hshare with rfl | hshare
    · omega
    · exact hmem share hshare

theorem leastOffset_ofOffsets (workers nrTables : Nat) (offsets : Array Nat) (table : Nat) :
    (ofOffsets workers nrTables offsets).leastOffset table =
      if table < nrTables then
        (List.range workers).foldl
          (fun m share => min m (offsets[table * workers + share]?.getD 0))
          (offsets[table * workers]?.getD 0)
      else 0 := by
  unfold leastOffset
  unfold ofOffsets
  split
  · rename_i ht
    simp only [Array.size_map, Array.size_range, ht, getElem?_pos, Array.getElem_map,
      Array.getElem_range, Option.getD_some]
  · rename_i ht
    simp [ht]

/-- The least offset of a table is at most the offset of each of its shares. -/
theorem leastOffset_le (workers nrTables : Nat) (offsets : Array Nat) (table : Nat) {share : Nat}
    (hs : share < workers) :
    (ofOffsets workers nrTables offsets).leastOffset table ≤
      (ofOffsets workers nrTables offsets).shareOffset table share := by
  rw [leastOffset_ofOffsets]
  split
  · exact (foldl_min_le (fun share => offsets[table * workers + share]?.getD 0) _ _).2 share
      (List.mem_range.2 hs)
  · exact Nat.zero_le _

/-- **A snapshot covers the rows below the offset of their share.** -/
theorem covers_ofOffsets {workers : Nat} (hpos : 0 < workers) (nrTables : Nat)
    (offsets : Array Nat) (table row : Nat) :
    (ofOffsets workers nrTables offsets).covers table row =
      decide (row < (ofOffsets workers nrTables offsets).shareOffset table (row % workers)) := by
  have hle := leastOffset_le workers nrTables offsets table (Nat.mod_lt row hpos)
  rw [covers, show (ofOffsets workers nrTables offsets).workers = workers from rfl,
    ← Bool.decide_or, decide_eq_decide]
  omega

section Bound

variable {offsets : Array Nat} {bound : Nat} (h : ∀ x ∈ offsets, x < bound) (hpos : 0 < bound)

include h hpos

theorem getD_lt (i : Nat) : offsets[i]?.getD 0 < bound := by
  cases hi : offsets[i]? with
  | none => exact hpos
  | some x => exact h x (Array.mem_of_getElem? hi)

/-- The offsets of a snapshot are bounded like those that it has been made of. -/
theorem shareOffset_lt (workers nrTables table share : Nat) :
    (ofOffsets workers nrTables offsets).shareOffset table share < bound :=
  getD_lt h hpos _

theorem leastOffset_lt (workers nrTables table : Nat) :
    (ofOffsets workers nrTables offsets).leastOffset table < bound := by
  rw [leastOffset_ofOffsets]
  split
  · exact Nat.lt_of_le_of_lt
      (foldl_min_le (fun share => offsets[table * workers + share]?.getD 0) _ _).1
      (getD_lt h hpos _)
  · exact hpos

end Bound

end Snapshot

theorem Progress.shareOffset_snapshot (p : Progress) (table share : Nat) :
    p.snapshot.shareOffset table share = p.offset table share := rfl

end AdaptiveJoin
