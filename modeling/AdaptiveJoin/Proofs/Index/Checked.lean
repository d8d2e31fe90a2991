import Mathlib.Algebra.Order.Ring.Nat
import AdaptiveJoin.Proofs.Index.Ascending
import AdaptiveJoin.Proofs.Index.Column

/-!
# Checked indexes are right

The offsets of runs are words.  In a column of very many rows and keys they wrap around, so that
runs may overlap and overwrite each other while rows are stored.  The check at the end finds every
index that has been spoiled in this way: an index that passes it represents its column
(`Runs.represents_of_ofKeys`), whatever the layout is.

* The length that a run claims never falls short of the rows stored in it, and it only gets further
  ahead (`Runs.runLength_stored_succ`).  As the lengths add up in the end, every run has been right
  about its length all the time (`Runs.HasLengths`).
* So no two runs share an offset (`Runs.HasLengths.eq_of_offset_eq`), and the length of a run does
  not lie among the rows of another one (`Runs.HasLengths.ne_of_lt`).
* A row that stands at the place that it knows has been stored there for its own key
  (`Runs.HasLengths.runRow?_eq`).
-/

namespace AdaptiveJoin

variable {κ : Type} [BEq κ] [LawfulBEq κ] [Hashable κ]

section Occurrences

variable {keys : Array (Option κ)} {key : κ} {m : Nat}

omit [Hashable κ] in
/-- Every occurrence is the next one at its row. -/
theorem exists_row_of_lt {i : Nat} (hi : i < (occurrences keys key m).length) :
    ∃ row < m, keys[row]? = some (some key) ∧ (occurrences keys key row).length = i := by
  induction m with
  | zero => exact absurd hi (Nat.not_lt_zero i)
  | succ m ih =>
    by_cases hkey : keys[m]? = some (some key)
    · rw [occurrences_succ_self hkey, List.length_append, List.length_singleton] at hi
      by_cases heq : i = (occurrences keys key m).length
      · exact ⟨m, Nat.lt_succ_self m, hkey, heq.symm⟩
      · obtain ⟨row, hrow, hrest⟩ := ih (by omega)
        exact ⟨row, by omega, hrest⟩
    · rw [occurrences_succ_of_ne hkey] at hi
      obtain ⟨row, hrow, hrest⟩ := ih hi
      exact ⟨row, by omega, hrest⟩

omit [Hashable κ] in
/-- A key that occurs in all of some first rows occurs in the first one. -/
theorem getElem?_zero_of_length_eq (h : (occurrences keys key m).length = m) (hm : 0 < m) :
    keys[0]? = some (some key) := by
  have hall : ∀ row ∈ List.range m, (keys[row]? == some (some key)) = true := by
    apply List.length_filter_eq_length_iff.1
    rw [List.length_range]
    exact h
  exact eq_of_beq (hall 0 (List.mem_range.2 hm))

end Occurrences

namespace Runs

/-! ### Storing rows one after another -/

/-- The index before any row is stored. -/
def unfilled (l : Layout κ) (keys : Array (Option κ)) : Runs κ :=
  { order := l.order
    offsets := l.offsets
    slots := Array.replicate (keys.countP Option.isSome + l.order.size) 0
    places := Array.replicate keys.size 0
    nrIndexed := keys.countP Option.isSome }

/-- The index after the first `m` rows are stored. -/
def stored (l : Layout κ) (keys : Array (Option κ)) : Nat → Runs κ
  | 0 => unfilled l keys
  | m + 1 =>
    match keys[m]?.join.bind (l.offsets[·]?) with
    | some offset => (stored l keys m).append offset m
    | none => stored l keys m

variable {l : Layout κ} {keys : Array (Option κ)} {m : Nat} {key k : κ} {offset o : UInt32}

omit [LawfulBEq κ] in
theorem foldl_eq_stored (l : Layout κ) (keys : Array (Option κ)) :
    keys.zipIdx.foldl (fun (ix : Runs κ) entry =>
      match entry.1.bind (l.offsets[·]?) with
      | some offset => ix.append offset entry.2
      | none => ix) (unfilled l keys) = stored l keys keys.size := by
  have hsize : keys.zipIdx.size = keys.size := Array.size_zipIdx
  rw [← hsize]
  apply Array.foldl_induction (fun m (ix : Runs κ) => ix = stored l keys m) rfl
  rintro ⟨m, hm⟩ ix rfl
  have hm' : m < keys.size := by simpa using hm
  simp only [Fin.getElem_fin, Array.getElem_zipIdx, Nat.zero_add]
  rw [stored, Array.getElem?_eq_getElem hm', Option.join_some]

omit [LawfulBEq κ] in
/-- An index that passes the check holds all rows. -/
theorem eq_stored_of_ofKeys {column : String} {ix : Runs κ} (h : ofKeys column keys = .ok ix) :
    ix = stored (Layout.ofKeys keys) keys keys.size ∧ ix.fault? column = none := by
  unfold ofKeys at h
  split at h
  · exact absurd h (by simp)
  · dsimp only at h
    split at h
    · exact absurd h (by simp)
    · rename_i hfault
      have hix := Except.ok.inj h
      rw [hix] at hfault
      exact ⟨hix.symm.trans (foldl_eq_stored _ _), hfault⟩

omit [LawfulBEq κ] in
/-- A row is stored in the run of its key, and nothing happens without one. -/
theorem stored_succ (l : Layout κ) (keys : Array (Option κ)) (m : Nat) :
    (∃ key offset, keys[m]? = some (some key) ∧ l.offsets[key]? = some offset ∧
      stored l keys (m + 1) = (stored l keys m).append offset m) ∨
    ((∀ key offset, l.offsets[key]? = some offset → keys[m]? ≠ some (some key)) ∧
      stored l keys (m + 1) = stored l keys m) := by
  rw [stored]
  cases hkey : keys[m]?.join with
  | none =>
    refine Or.inr ⟨fun key offset _ heq => ?_, rfl⟩
    rw [heq] at hkey
    exact absurd hkey (by simp)
  | some key =>
    have hrow : keys[m]? = some (some key) := Option.join_eq_some_iff.1 hkey
    rw [Option.bind_some]
    cases ho : l.offsets[key]? with
    | none =>
      -- A key without a place is not stored.
      refine Or.inr ⟨fun k offset hk heq => ?_, rfl⟩
      rw [hrow] at heq
      obtain rfl := Option.some.inj (Option.some.inj heq)
      rw [ho] at hk
      exact absurd hk (by simp)
    | some offset => exact Or.inl ⟨key, offset, hrow, ho, rfl⟩

omit [LawfulBEq κ] in
theorem stored_succ_of_key (hrow : keys[m]? = some (some key))
    (ho : l.offsets[key]? = some offset) :
    stored l keys (m + 1) = (stored l keys m).append offset m := by
  rw [stored, hrow, Option.join_some, Option.bind_some, ho]

omit [LawfulBEq κ] in
/-- Storing rows leaves everything but the slots and the places alone. -/
theorem stored_frame (l : Layout κ) (keys : Array (Option κ)) (m : Nat) :
    (stored l keys m).order = l.order ∧ (stored l keys m).offsets = l.offsets ∧
      (stored l keys m).nrIndexed = keys.countP Option.isSome ∧
      (stored l keys m).slots.size = keys.countP Option.isSome + l.order.size ∧
      (stored l keys m).places.size = keys.size := by
  induction m with
  | zero => exact ⟨rfl, rfl, rfl, Array.size_replicate, Array.size_replicate⟩
  | succ m ih =>
    rcases stored_succ l keys m with ⟨key, offset, -, -, heq⟩ | ⟨-, heq⟩
    · rw [heq]
      simpa [append] using ih
    · rwa [heq]

omit [LawfulBEq κ] in
/-- What storing a row leaves in a slot. -/
theorem getElem?_slots_append (ix : Runs κ) (offset : UInt32) (row : Nat) {p : Nat}
    (hp : p < ix.slots.size) : (ix.append offset row).slots[p]? =
      if offset.toNat + (ix.runLength offset + 1) = p then some row
      else if offset.toNat = p then some (ix.runLength offset + 1)
      else ix.slots[p]? := by
  unfold append
  dsimp only
  rw [Array.getElem?_setIfInBounds, Array.getElem?_setIfInBounds, Array.size_setIfInBounds]
  split
  · rename_i heq
    rw [heq, if_pos hp]
  · split
    · rename_i heq
      rw [heq, if_pos hp]
    · rfl

omit [LawfulBEq κ] in
/-- What storing a row leaves of the length of a run. -/
theorem runLength_append (ix : Runs κ) (offset : UInt32) (row : Nat)
    (ho : o.toNat < ix.slots.size) : (ix.append offset row).runLength o =
      if offset.toNat + (ix.runLength offset + 1) = o.toNat then row
      else if offset = o then ix.runLength offset + 1
      else ix.runLength o := by
  rw [runLength, getElem?_slots_append ix offset row ho]
  by_cases hrow : offset.toNat + (ix.runLength offset + 1) = o.toNat
  · rw [if_pos hrow, if_pos hrow, Option.getD_some]
  rw [if_neg hrow, if_neg hrow]
  by_cases heq : offset = o
  · rw [if_pos heq, if_pos (congrArg UInt32.toNat heq), Option.getD_some]
  · rw [if_neg heq, if_neg fun h => heq (UInt32.toNat_inj.1 h)]
    rfl

/-! ### Lengths -/

section Lengths

variable (hl : l.IsListed keys keys.size)

include hl

/-- The slots of a run exist, even if its offset has wrapped around. -/
theorem add_keyCount_lt_slots (ho : l.offsets[key]? = some offset) (m : Nat) :
    offset.toNat + keyCount keys key < (stored l keys m).slots.size := by
  obtain ⟨i, hi, rfl⟩ := hl.exists_getElem? ho
  have hlt := slotsOf_take_add_lt keys hi (List.getElem?_eq_some_iff.1 hi).1
  have hsum := sum_keyCount_le keys hl.nodup
  have hword : (UInt32.ofNat (slotsOf keys (l.order.toList.take i))).toNat ≤
      slotsOf keys (l.order.toList.take i) := by
    rw [UInt32.toNat_ofNat']
    exact Nat.mod_le _ _
  rw [List.take_length, slotsOf_eq keys l.order.toList, Array.length_toList] at hlt
  rw [(stored_frame l keys m).2.2.2.1]
  omega

/-- A run does not claim more rows than there have been. -/
theorem runLength_stored_le (ho : l.offsets[key]? = some offset) (m : Nat) :
    (stored l keys m).runLength offset ≤ m := by
  induction m with
  | zero =>
    have hlt := add_keyCount_lt_slots hl ho 0
    unfold runLength stored unfilled
    dsimp only
    rw [Array.getElem?_replicate]
    split <;> exact Nat.le_refl 0
  | succ m ih =>
    -- Storing a row writes the row, and adds one to the length of its run.
    rcases stored_succ l keys m with ⟨k, o, -, hk, heq⟩ | ⟨-, heq⟩
    · have hlt := add_keyCount_lt_slots hl ho m
      rw [heq, runLength_append _ o m (by omega)]
      split
      · exact Nat.le_succ m
      · split
        · rename_i heq
          rw [heq]
          exact Nat.succ_le_succ ih
        · exact Nat.le_succ_of_le ih
    · rw [heq]
      exact Nat.le_succ_of_le ih

/-- **What a run claims beyond its rows never shrinks**: a row that is stored counts, and a length
that is overwritten by a row only grows, because there have not been more rows before. -/
theorem runLength_stored_succ (ho : l.offsets[key]? = some offset) (m : Nat) :
    (stored l keys m).runLength offset + (occurrences keys key (m + 1)).length ≤
      (stored l keys (m + 1)).runLength offset + (occurrences keys key m).length := by
  have hle := runLength_stored_le hl ho m
  rcases stored_succ l keys m with ⟨k, o, hrow, hk, heq⟩ | ⟨hnone, heq⟩
  · have hlt := add_keyCount_lt_slots hl ho m
    rw [heq, runLength_append _ o m (by omega)]
    -- A row of the key makes its run longer, and a row of another key can only overwrite the
    -- length.
    by_cases hkey : k = key
    · subst hkey
      obtain rfl := Option.some.inj (hk.symm.trans ho)
      rw [if_neg (by omega), if_pos rfl, occurrences_succ_self hrow, List.length_append,
        List.length_singleton]
      omega
    · rw [occurrences_succ_of_key_ne hrow (Ne.symm hkey)]
      split
      · omega
      · split
        · rename_i heq
          rw [heq]
          omega
        · exact Nat.le_refl _
  · rw [heq, occurrences_succ_of_ne (hnone key offset ho)]

theorem runLength_stored_mono (ho : l.offsets[key]? = some offset) {m m' : Nat} (h : m ≤ m') :
    (stored l keys m).runLength offset + (occurrences keys key m').length ≤
      (stored l keys m').runLength offset + (occurrences keys key m).length := by
  induction h with
  | refl => exact Nat.le_refl _
  | @step m' _ ih =>
    have := runLength_stored_succ hl ho m'
    rw [Nat.succ_eq_add_one]
    omega

/-- A run does not claim less rows than it has. -/
theorem length_le_runLength_stored (ho : l.offsets[key]? = some offset) (m : Nat) :
    (occurrences keys key m).length ≤ (stored l keys m).runLength offset := by
  have hmono := runLength_stored_mono hl ho (Nat.zero_le m)
  have hzero := runLength_stored_le hl ho 0
  have hnone : (occurrences keys key 0).length = 0 := rfl
  omega

end Lengths

/-- All runs claim the rows that they have, at any time. -/
def HasLengths (l : Layout κ) (keys : Array (Option κ)) : Prop :=
  ∀ key offset, l.offsets[key]? = some offset → ∀ m ≤ keys.size,
    (stored l keys m).runLength offset = (occurrences keys key m).length

/-- All rows that the runs hold in the end are at the places that they know. -/
def HasPlaces (l : Layout κ) (keys : Array (Option κ)) : Prop :=
  ∀ (key : κ) (offset : UInt32), l.offsets[key]? = some offset → ∀ i row,
    (stored l keys keys.size).runRow? offset i = some row →
      (stored l keys keys.size).places[row]? = some (i + 1)

/-- An index that passes the check has been right about its lengths. -/
theorem hasLengths_of_fault? (hl : l.IsListed keys keys.size) {column : String}
    (hfault : (stored l keys keys.size).fault? column = none) : HasLengths l keys := by
  obtain ⟨horder, hoffsets, hindexed, -, -⟩ := stored_frame l keys keys.size
  have hsum : (l.order.toList.map (stored l keys keys.size).count).sum =
      (l.order.toList.map (keyCount keys)).sum := by
    rw [sum_keyCount_eq keys hl.nodup hl.mem_order_of_mem]
    unfold fault? at hfault
    dsimp only at hfault
    rw [foldl_runLength, horder, hindexed, Nat.zero_add] at hfault
    split at hfault
    · exact absurd hfault (by simp)
    · split at hfault
      · assumption
      · exact absurd hfault (by simp)
  have hcount {key : κ} {offset : UInt32} (ho : l.offsets[key]? = some offset) :
      (stored l keys keys.size).count key = (stored l keys keys.size).runLength offset := by
    rw [count, hoffsets, ho]
  have hle : ∀ key ∈ l.order.toList, keyCount keys key ≤ (stored l keys keys.size).count key := by
    intro key hkey
    obtain ⟨offset, ho⟩ := hl.exists_offset hkey
    rw [hcount ho]
    exact length_le_runLength_stored hl ho _
  intro key offset ho m hm
  have hkey := hl.mem_order_of_offset ho
  -- One length that is too large makes the sum too large.
  have hend : (stored l keys keys.size).runLength offset = keyCount keys key := by
    refine Nat.le_antisymm (Nat.not_lt.1 fun hlt => ?_) (length_le_runLength_stored hl ho _)
    have := List.sum_lt_sum _ _ hle ⟨key, hkey, (hcount ho).symm ▸ hlt⟩
    omega
  have hmono := runLength_stored_mono hl ho hm
  have hge := length_le_runLength_stored hl ho m
  unfold keyCount at hend
  omega

/-- In an index that passes the check every row is at the place that it knows. -/
theorem hasPlaces_of_fault? (hl : l.IsListed keys keys.size) {column : String}
    (hfault : (stored l keys keys.size).fault? column = none) : HasPlaces l keys := by
  obtain ⟨horder, hoffsets, -⟩ := stored_frame l keys keys.size
  intro key offset ho i row hrow
  refine place_of_fault? hfault ?_ (hoffsets ▸ ho) hrow
  rw [horder, ← Array.mem_toList_iff]
  exact hl.mem_order_of_offset ho

namespace HasLengths

variable (h : HasLengths l keys) (hl : l.IsListed keys keys.size)

include h hl

/-- **No two runs share an offset.** -/
theorem eq_of_offset_eq (ho : l.offsets[key]? = some offset) (hk : l.offsets[k]? = some offset) :
    k = key := by
  obtain ⟨row, hrow⟩ :=
    List.exists_mem_of_ne_nil _ ((hl.mem_order key).1 (hl.mem_order_of_offset ho))
  obtain ⟨hlt, hrow⟩ := mem_occurrences.1 hrow
  by_contra hne
  have hbefore := (h key offset ho row (by omega)).symm.trans (h k offset hk row (by omega))
  have hafter := (h key offset ho (row + 1) hlt).symm.trans (h k offset hk (row + 1) hlt)
  rw [occurrences_succ_self hrow, List.length_append, List.length_singleton,
    occurrences_succ_of_key_ne hrow hne] at hafter
  omega

/-- The length of a run can only be overwritten by the first row of the column. -/
theorem first_of_overwritten (ho : l.offsets[key]? = some offset) (hk : l.offsets[k]? = some o)
    {i : Nat} (hi : i < keyCount keys key) (heq : o.toNat = offset.toNat + (i + 1)) :
    keys[0]? = some (some key) ∧ i = 0 := by
  obtain ⟨row, hlt, hrow, rfl⟩ := exists_row_of_lt hi
  have hne : k ≠ key := by
    rintro rfl
    obtain rfl := Option.some.inj (ho.symm.trans hk)
    omega
  -- The length is the overwriting row, so the other run has had a row for every row before.
  have hlength : (occurrences keys k row).length = row := by
    have hslots := add_keyCount_lt_slots hl hk row
    have hnext := h k o hk (row + 1) hlt
    rw [stored_succ_of_key hrow ho, runLength_append _ offset row (by omega),
      h key offset ho row (Nat.le_of_lt hlt), if_pos heq.symm,
      occurrences_succ_of_key_ne hrow hne] at hnext
    exact hnext.symm
  rcases Nat.eq_zero_or_pos row with rfl | hpos
  · exact ⟨hrow, rfl⟩
  · have hzero := hl.offset_eq_zero (by omega) (getElem?_zero_of_length_eq hlength hpos)
    rw [hk] at hzero
    rw [Option.some.inj hzero] at heq
    exact absurd heq (by simp)

omit hl [LawfulBEq κ] in
/-- In the end the rows of a run are those of its slots. -/
theorem runRow?_of_lt (ho : l.offsets[key]? = some offset) {i : Nat}
    (hi : i < keyCount keys key) : (stored l keys keys.size).runRow? offset i =
      (stored l keys keys.size).slots[offset.toNat + (i + 1)]? := by
  unfold runRow?
  rw [h key offset ho _ (Nat.le_refl _), ← keyCount, if_pos hi, Nat.add_assoc, Nat.add_comm 1]

variable (hplaces : HasPlaces l keys)

include hplaces

/-- Rows of two runs that lie in the same slot are the same row of one run. -/
theorem eq_of_slot_eq (ho : l.offsets[key]? = some offset) (hk : l.offsets[k]? = some o) {i j : Nat}
    (hi : i < keyCount keys key) (hj : j < keyCount keys k)
    (heq : offset.toNat + (i + 1) = o.toNat + (j + 1)) : k = key ∧ j = i := by
  have hslots := add_keyCount_lt_slots hl ho keys.size
  obtain ⟨row, hrow⟩ : ∃ row, (stored l keys keys.size).slots[offset.toNat + (i + 1)]? = some row :=
    ⟨_, Array.getElem?_eq_getElem (by omega)⟩
  have hplace := hplaces key offset ho i row ((h.runRow?_of_lt ho hi).trans hrow)
  have hplace' := hplaces k o hk j row ((h.runRow?_of_lt hk hj).trans (heq ▸ hrow))
  obtain rfl : i = j := by
    have := Option.some.inj (hplace.symm.trans hplace')
    omega
  obtain rfl : o = offset := UInt32.toNat_inj.1 (by omega)
  exact ⟨h.eq_of_offset_eq hl ho hk, rfl⟩

/-- **The length of a run does not lie among the rows of another one.** -/
theorem ne_of_lt (ho : l.offsets[key]? = some offset) (hk : l.offsets[k]? = some o) {i : Nat}
    (hi : i < keyCount keys key) : o.toNat ≠ offset.toNat + (i + 1) := by
  intro heq
  obtain ⟨hfirst, rfl⟩ := h.first_of_overwritten hl ho hk hi heq
  have hsize : 0 < keys.size := (Array.getElem?_eq_some_iff.1 hfirst).1
  obtain rfl : offset = 0 := Option.some.inj (ho.symm.trans (hl.offset_eq_zero hsize hfirst))
  have heq : o.toNat = 1 := heq
  have hcount : 0 < keyCount keys k :=
    List.length_pos_of_ne_nil ((hl.mem_order k).1 (hl.mem_order_of_offset hk))
  have hne : k ≠ key := by
    rintro rfl
    obtain rfl := Option.some.inj (ho.symm.trans hk)
    exact absurd heq (by decide)
  by_cases hone : keyCount keys key = 1
  · -- The next run starts where the overwritten one has its first row.
    obtain ⟨k', hk'⟩ := hl.exists_second hsize hfirst hone hk hne
    obtain ⟨hfirst', -⟩ := h.first_of_overwritten hl hk hk' hcount (by rw [heq]; rfl)
    exact hne (Option.some.inj (Option.some.inj (hfirst'.symm.trans hfirst)))
  · -- The second row of the first run lies where the overwritten run has its first row.
    obtain ⟨heq, -⟩ := h.eq_of_slot_eq hl hplaces ho hk (i := 1) (j := 0) (by omega) hcount
      (by rw [heq]; rfl)
    exact hne heq

/-- **A run that does not start before another one starts behind it.** -/
theorem offset_add_lt (ho : l.offsets[key]? = some offset) (hk : l.offsets[k]? = some o)
    (hne : k ≠ key) (hle : offset.toNat ≤ o.toNat) :
    offset.toNat + keyCount keys key < o.toNat := by
  by_contra hge
  rcases Nat.eq_or_lt_of_le hle with heq | hlt
  · obtain rfl : offset = o := UInt32.toNat_inj.1 heq
    exact hne (h.eq_of_offset_eq hl ho hk)
  · refine h.ne_of_lt hl hplaces ho hk (i := o.toNat - offset.toNat - 1) ?_ ?_
    · omega
    · omega

/-- What a slot of a run holds has been stored there, for whichever run. -/
theorem exists_entry {m : Nat} (hm : m ≤ keys.size) (ho : l.offsets[key]? = some offset) {i : Nat}
    (hi : i < (occurrences keys key m).length) :
    ∃ k o j row, l.offsets[k]? = some o ∧ offset.toNat + (i + 1) = o.toNat + (j + 1) ∧
      (occurrences keys k m)[j]? = some row ∧
      (stored l keys m).slots[offset.toNat + (i + 1)]? = some row := by
  induction m generalizing key offset i with
  | zero => exact absurd hi (Nat.not_lt_zero i)
  | succ m ih =>
    have hcount : i < keyCount keys key :=
      Nat.lt_of_lt_of_le hi (length_occurrences_mono keys key hm)
    rcases stored_succ l keys m with ⟨a, b, hrow, hb, heq⟩ | ⟨hnone, heq⟩
    · have hslots := add_keyCount_lt_slots hl ho m
      rw [heq, getElem?_slots_append _ b m (by omega), h a b hb m (by omega)]
      by_cases hlast : b.toNat + ((occurrences keys a m).length + 1) = offset.toNat + (i + 1)
      · -- The row itself.
        refine ⟨a, b, (occurrences keys a m).length, m, hb, hlast.symm, ?_, if_pos hlast⟩
        rw [occurrences_succ_self hrow, List.getElem?_concat_length]
      · -- Its length does not go to the slot of a row.
        rw [if_neg hlast, if_neg (h.ne_of_lt hl hplaces ho hb hcount)]
        have hold : i < (occurrences keys key m).length := by
          by_cases hkey : a = key
          · subst hkey
            obtain rfl := Option.some.inj (hb.symm.trans ho)
            rw [occurrences_succ_self hrow, List.length_append, List.length_singleton] at hi
            omega
          · rwa [occurrences_succ_of_key_ne hrow (Ne.symm hkey)] at hi
        obtain ⟨k, o, j, row, hk, hslot, hentry, hrow⟩ := ih (by omega) ho hold
        refine ⟨k, o, j, row, hk, hslot, ?_, hrow⟩
        rw [occurrences_succ, List.getElem?_append_left (List.getElem?_eq_some_iff.1 hentry).1]
        exact hentry
    · rw [occurrences_succ_of_ne (hnone key offset ho)] at hi
      obtain ⟨k, o, j, row, hk, hslot, hentry, hrow⟩ := ih (by omega) ho hi
      refine ⟨k, o, j, row, hk, hslot, ?_, heq ▸ hrow⟩
      rwa [occurrences_succ_of_ne (hnone k o hk)]

/-- **The run of a key holds the rows with the key.** -/
theorem runRow?_eq (ho : l.offsets[key]? = some offset) (i : Nat) :
    (stored l keys keys.size).runRow? offset i = (occurrences keys key keys.size)[i]? := by
  by_cases hi : i < keyCount keys key
  · rw [h.runRow?_of_lt ho hi]
    obtain ⟨k, o, j, row, hk, hslot, hentry, hrow⟩ :=
      h.exists_entry hl hplaces (Nat.le_refl _) ho hi
    obtain ⟨rfl, rfl⟩ := h.eq_of_slot_eq hl hplaces ho hk hi
      (List.getElem?_eq_some_iff.1 hentry).1 hslot
    rw [hrow, hentry]
  · unfold runRow?
    rw [h key offset ho _ (Nat.le_refl _), ← keyCount, if_neg hi,
      List.getElem?_eq_none (Nat.not_lt.1 hi)]

omit hplaces in
/-- Every row with a key knows its place. -/
theorem place_stored {m : Nat} (hm : m ≤ keys.size) {i row : Nat}
    (hrow : (occurrences keys key m)[i]? = some row) :
    (stored l keys m).places[row]? = some (i + 1) := by
  induction m with
  | zero => exact absurd hrow (by simp [occurrences])
  | succ m ih =>
    rcases stored_succ l keys m with ⟨a, b, hkey, hb, heq⟩ | ⟨hnone, heq⟩
    · have hsize := (stored_frame l keys m).2.2.2.2
      rw [heq, append]
      dsimp only
      rw [h a b hb m (by omega)]
      -- The row was stored before, or it is the row stored now.
      rcases getElem?_occurrences_succ hrow with hold | ⟨rfl, rfl, hkey'⟩
      · have hlt := (mem_occurrences.1 (List.mem_of_getElem? hold)).1
        rw [Array.getElem?_setIfInBounds_ne (by omega)]
        exact ih (by omega) hold
      · obtain rfl := Option.some.inj (Option.some.inj (hkey.symm.trans hkey'))
        rw [Array.getElem?_setIfInBounds_self_of_lt (by omega)]
    · have hmem := (mem_occurrences.1 (List.mem_of_getElem? hrow)).2
      obtain ⟨offset, ho⟩ :=
        hl.exists_offset (hl.mem_order_of_mem key (Array.mem_of_getElem? hmem))
      rw [occurrences_succ_of_ne (hnone key offset ho)] at hrow
      rw [heq]
      exact ih (by omega) hrow

end HasLengths

/-- **An index that passes the check represents its column**, wherever its runs lie. -/
theorem represents_of_ofKeys {column : String} {ix : Runs κ} (h : ofKeys column keys = .ok ix) :
    ix.Represents keys := by
  obtain ⟨rfl, hfault⟩ := eq_stored_of_ofKeys h
  have hl := Layout.ofKeys_isListed keys
  obtain ⟨-, hoffsets, hindexed, -, hsize⟩ := stored_frame (Layout.ofKeys keys) keys keys.size
  have hlengths := hasLengths_of_fault? hl hfault
  have hplaces := hasPlaces_of_fault? hl hfault
  refine ⟨hindexed, hsize, fun key hnone => ?_, fun key offset ho => ?_,
    fun key offset ho => ?_, fun key i row => hlengths.place_stored hl (Nat.le_refl _)⟩
  · by_contra hne
    obtain ⟨offset, ho⟩ := hl.exists_offset ((hl.mem_order key).2 hne)
    rw [hoffsets, ho] at hnone
    exact absurd hnone (by simp)
  · rw [hoffsets] at ho
    exact hlengths key offset ho _ (Nat.le_refl _)
  · rw [hoffsets] at ho
    exact hlengths.runRow?_eq hl hplaces ho

end Runs

/-- **The index of a column represents it**, however many rows there are. -/
theorem ColumnIndex.represents_of_checked {c : Column} {ix : ColumnIndex}
    (h : ofColumn c = .ok ix) : ix.Represents c := by
  unfold ofColumn at h
  cases hc : c.cells with
  | int xs =>
    simp only [Column.kind, Column.intKeys?, hc, Option.getD_some] at h
    obtain ⟨runs, rfl, hok⟩ := Runs.exists_of_ofKeys h
    exact ⟨xs, hc, Runs.represents_of_ofKeys hok⟩
  | double xs =>
    simp only [Column.kind, Column.doubleKeys?, hc, Option.getD_some] at h
    obtain ⟨runs, rfl, hok⟩ := Runs.exists_of_ofKeys h
    exact ⟨xs, hc, Runs.represents_of_ofKeys hok⟩
  | text xs =>
    simp only [Column.kind, Column.textKeys?, hc, Option.getD_some] at h
    obtain ⟨runs, rfl, hok⟩ := Runs.exists_of_ofKeys h
    exact ⟨xs, hc, Runs.represents_of_ofKeys hok⟩

end AdaptiveJoin
