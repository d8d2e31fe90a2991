import AdaptiveJoin.Proofs.Index.Layout

/-!
# Runs hold the occurrences of their keys

`Runs.Represents` says what the lookups of an index rely on: the run of a key holds the rows with
the key in ascending order, and every row knows its place.  `Runs.ofKeys_eq_ok` shows that a column
that fits the layout gets an index, and that the index represents the column.
-/

namespace AdaptiveJoin

variable {κ : Type} [BEq κ] [LawfulBEq κ] [Hashable κ]

namespace Runs

/-! ### Storing rows -/

/-- The first `m` rows are stored in the runs of a layout. -/
structure Stores (ix : Runs κ) (l : Layout κ) (keys : Array (Option κ)) (m : Nat) : Prop where
  order_eq : ix.order = l.order
  offsets_eq : ix.offsets = l.offsets
  nrIndexed_eq : ix.nrIndexed = keys.countP Option.isSome
  size_slots : l.next.toNat ≤ ix.slots.size
  size_places : ix.places.size = keys.size
  length : ∀ key offset, l.offsets[key]? = some offset →
    ix.slots[offset.toNat]? = some (occurrences keys key m).length
  row : ∀ key offset i, l.offsets[key]? = some offset → i < (occurrences keys key m).length →
    ix.slots[offset.toNat + 1 + i]? = (occurrences keys key m)[i]?
  place : ∀ key i row, (occurrences keys key m)[i]? = some row → ix.places[row]? = some (i + 1)

omit [LawfulBEq κ] in
theorem Stores.runLength {ix : Runs κ} {l : Layout κ} {keys : Array (Option κ)} {m : Nat}
    (h : ix.Stores l keys m) {key : κ} {offset : UInt32} (ho : l.offsets[key]? = some offset) :
    ix.runLength offset = (occurrences keys key m).length := by
  unfold Runs.runLength
  rw [h.length key offset ho]
  rfl

section Append

variable {ix : Runs κ} {l : Layout κ} {keys : Array (Option κ)} {m : Nat} {key : κ}
  {offset : UInt32} (h : ix.Stores l keys m) (hl : l.IsPlaced keys keys.size)
  (hkey : keys[m]? = some (some key)) (ho : l.offsets[key]? = some offset)

include h hl hkey ho

/-- The slots of the other runs are left alone. -/
theorem Stores.slots_append_of_ne {k : κ} {o : UInt32} (hk : k ≠ key) (hko : l.offsets[k]? = some o)
    {i : Nat} (hi : i ≤ keyCount keys k) :
    (ix.append offset m).slots[o.toNat + i]? = ix.slots[o.toNat + i]? := by
  have hlen := h.runLength ho
  have hcount := length_occurrences_lt_keyCount hkey
  have hdisjoint := hl.disjoint k key o offset hk hko ho
  rw [append, Array.getElem?_setIfInBounds_ne (by omega),
    Array.getElem?_setIfInBounds_ne (by omega)]

theorem Stores.length_append {k : κ} {o : UInt32} (hko : l.offsets[k]? = some o) :
    (ix.append offset m).slots[o.toNat]? = some (occurrences keys k (m + 1)).length := by
  have hcount := length_occurrences_lt_keyCount hkey
  have hfits := hl.fits key offset ho
  have hsize := h.size_slots
  by_cases hk : k = key
  · subst hk
    obtain rfl : o = offset := Option.some.inj (hko.symm.trans ho)
    rw [append, Array.getElem?_setIfInBounds_ne (by omega),
      Array.getElem?_setIfInBounds_self_of_lt (by omega), h.runLength ho,
      occurrences_succ_self hkey, List.length_append, List.length_singleton]
  · rw [occurrences_succ_of_key_ne hkey hk, ← h.length k o hko]
    exact h.slots_append_of_ne hl hkey ho hk hko (Nat.zero_le _)

theorem Stores.row_append {k : κ} {o : UInt32} (hko : l.offsets[k]? = some o) {i : Nat}
    (hi : i < (occurrences keys k (m + 1)).length) :
    (ix.append offset m).slots[o.toNat + 1 + i]? = (occurrences keys k (m + 1))[i]? := by
  have hlen := h.runLength ho
  have hcount := length_occurrences_lt_keyCount hkey
  have hfits := hl.fits key offset ho
  have hsize := h.size_slots
  by_cases hk : k = key
  · subst hk
    obtain rfl : o = offset := Option.some.inj (hko.symm.trans ho)
    rw [occurrences_succ_self hkey, List.length_append, List.length_singleton] at hi
    rw [occurrences_succ_self hkey]
    -- The row just stored is the last one of its run.
    by_cases hlast : i = (occurrences keys k m).length
    · subst hlast
      rw [append, hlen, show o.toNat + 1 + (occurrences keys k m).length =
        o.toNat + ((occurrences keys k m).length + 1) by omega,
        Array.getElem?_setIfInBounds_self_of_lt (by simp; omega)]
      simp
    · rw [append, Array.getElem?_setIfInBounds_ne (by omega),
        Array.getElem?_setIfInBounds_ne (by omega), h.row k o i hko (by omega),
        List.getElem?_append_left (by omega)]
  · -- Runs do not overlap, so the run of another key stays as it is.
    have hm := (Array.getElem?_eq_some_iff.1 hkey).1
    rw [occurrences_succ_of_key_ne hkey hk] at hi ⊢
    have hle := length_occurrences_mono keys k hm.le
    have hslot := h.slots_append_of_ne hl hkey ho hk hko
      (show 1 + i ≤ keyCount keys k by rw [keyCount]; omega)
    rw [← Nat.add_assoc] at hslot
    rw [hslot, h.row k o i hko hi]

omit hl in
theorem Stores.place_append {k : κ} {i row : Nat}
    (hrow : (occurrences keys k (m + 1))[i]? = some row) :
    (ix.append offset m).places[row]? = some (i + 1) := by
  have hm := (Array.getElem?_eq_some_iff.1 hkey).1
  have hplaces : (ix.append offset m).places =
      ix.places.setIfInBounds m ((occurrences keys key m).length + 1) := by
    unfold append
    rw [h.runLength ho]
  rw [hplaces]
  rcases getElem?_occurrences_succ hrow with hold | ⟨rfl, rfl, hkey'⟩
  · have hlt := (mem_occurrences.1 (List.mem_of_getElem? hold)).1
    rw [Array.getElem?_setIfInBounds_ne (by omega)]
    exact h.place k i row hold
  · obtain rfl : k = key := by simpa [hkey] using hkey'.symm
    rw [Array.getElem?_setIfInBounds_self_of_lt (h.size_places ▸ hm)]

/-- Storing the next row, which has a key. -/
theorem Stores.append : (ix.append offset m).Stores l keys (m + 1) where
  order_eq := h.order_eq
  offsets_eq := h.offsets_eq
  nrIndexed_eq := h.nrIndexed_eq
  size_slots := by simpa [Runs.append] using h.size_slots
  size_places := by simpa [Runs.append] using h.size_places
  length _ _ hko := h.length_append hl hkey ho hko
  row _ _ _ hko hi := h.row_append hl hkey ho hko hi
  place _ _ _ hrow := h.place_append hkey ho hrow

end Append

/-- A row without a key is not stored. -/
theorem Stores.skip {ix : Runs κ} {l : Layout κ} {keys : Array (Option κ)} {m : Nat}
    (h : ix.Stores l keys m) (hnone : keys[m]? = some none) : ix.Stores l keys (m + 1) := by
  have hocc (key : κ) : occurrences keys key (m + 1) = occurrences keys key m :=
    occurrences_succ_of_ne (by rw [hnone]; simp)
  refine ⟨h.order_eq, h.offsets_eq, h.nrIndexed_eq, h.size_slots, h.size_places, ?_, ?_, ?_⟩
  · intro key offset ho
    rw [hocc]
    exact h.length key offset ho
  · intro key offset i ho hi
    rw [hocc] at hi ⊢
    exact h.row key offset i ho hi
  · intro key i row hrow
    rw [hocc] at hrow
    exact h.place key i row hrow

/-- The index before any row is stored. -/
theorem stores_start {l : Layout κ} {keys : Array (Option κ)} (hl : l.IsPlaced keys keys.size) :
    Stores { order := l.order
             offsets := l.offsets
             slots := Array.replicate (keys.countP Option.isSome + l.order.size) 0
             places := Array.replicate keys.size 0
             nrIndexed := keys.countP Option.isSome } l keys 0 := by
  have hnext : l.next.toNat ≤ keys.countP Option.isSome + l.order.size := by
    have := sum_keyCount_le keys hl.nodup
    rw [hl.next, slotsOf_eq]
    simp only [Array.length_toList]
    omega
  refine ⟨rfl, rfl, rfl, by simpa using hnext, by simp, fun key offset ho => ?_, ?_, ?_⟩
  · -- Every run begins within the slots, with the length 0 for now.
    have := hl.fits key offset ho
    rw [Array.getElem?_replicate, if_pos (by omega)]
    simp [occurrences]
  · intro key offset i _ hi
    simp [occurrences] at hi
  · intro key i row hrow
    simp [occurrences] at hrow

/-! ### The index of a column -/

/-- The run of every key holds the rows with the key in ascending order, and every row knows its
place. -/
structure Represents (ix : Runs κ) (keys : Array (Option κ)) : Prop where
  nrIndexed_eq : ix.nrIndexed = keys.countP Option.isSome
  size_places : ix.places.size = keys.size
  absent : ∀ key, ix.offsets[key]? = none → occurrences keys key keys.size = []
  runLength : ∀ key offset, ix.offsets[key]? = some offset → ix.runLength offset = keyCount keys key
  runRow : ∀ key offset, ix.offsets[key]? = some offset →
    ∀ i, ix.runRow? offset i = (occurrences keys key keys.size)[i]?
  place : ∀ key i row, (occurrences keys key keys.size)[i]? = some row →
    ix.places[row]? = some (i + 1)

theorem Stores.represents {ix : Runs κ} {l : Layout κ} {keys : Array (Option κ)}
    (h : ix.Stores l keys keys.size) (hl : l.IsPlaced keys keys.size) : ix.Represents keys := by
  refine ⟨h.nrIndexed_eq, h.size_places, fun key hnone => ?_, fun key offset ho => ?_,
    fun key offset ho i => ?_, h.place⟩
  · -- A key without an offset does not occur, as every key that occurs has been placed.
    by_contra hne
    have hc := (hl.contains key).2 ((hl.mem_order key).2 hne)
    rw [h.offsets_eq] at hnone
    rw [Std.HashMap.contains_eq_isSome_getElem?, hnone] at hc
    exact absurd hc (by decide)
  · rw [h.offsets_eq] at ho
    exact h.runLength ho
  · rw [h.offsets_eq] at ho
    unfold runRow?
    rw [h.runLength ho]
    split
    · rename_i hi
      exact h.row key offset i ho hi
    · rename_i hi
      rw [List.getElem?_eq_none (Nat.not_lt.1 hi)]

omit [LawfulBEq κ] in
/-- An index that represents a column counts the rows of every key. -/
theorem Represents.count_eq {ix : Runs κ} {keys : Array (Option κ)} (h : ix.Represents keys)
    (key : κ) : ix.count key = keyCount keys key := by
  unfold count
  split
  · rename_i offset ho
    exact h.runLength key offset ho
  · rename_i hnone
    rw [keyCount, h.absent key hnone]
    rfl

omit [LawfulBEq κ] in
/-- The lengths of the runs of some keys add up to their counts. -/
theorem foldl_runLength (ix : Runs κ) (ks : List κ) (total : Nat) :
    (ks.filterMap fun key => ix.offsets[key]?).foldl
      (fun sum offset => sum + ix.runLength offset) total = total + (ks.map ix.count).sum := by
  induction ks generalizing total with
  | nil => rfl
  | cons k ks ih =>
    rw [List.filterMap_cons, List.map_cons, List.sum_cons, count]
    cases ix.offsets[k]? with
    | none =>
      dsimp only
      rw [ih, Nat.zero_add]
    | some offset =>
      dsimp only
      rw [List.foldl_cons, ih, Nat.add_assoc]

omit [LawfulBEq κ] in
/-- No place of a run is faulty. -/
theorem Represents.placeFault?_eq_none {ix : Runs κ} {keys : Array (Option κ)}
    (h : ix.Represents keys) (column : String) {key : κ} {offset : UInt32}
    (ho : ix.offsets[key]? = some offset) (i : Nat) :
    placeFault? column ix offset i = none := by
  unfold placeFault?
  rw [h.runRow key offset ho]
  split
  · rfl
  · rename_i row hrow
    -- The run ascends, so the row before is smaller.
    have hordered : ¬(0 < i ∧ row ≤ (ix.runRow? offset (i - 1)).getD 0) := by
      rintro ⟨hi, hle⟩
      obtain ⟨hlt, hrow⟩ := List.getElem?_eq_some_iff.1 hrow
      have hpair := (List.pairwise_iff_getElem.1 (pairwise_occurrences keys key keys.size))
        (i - 1) i (by omega) hlt (by omega)
      rw [h.runRow key offset ho, List.getElem?_eq_getElem (by omega), Option.getD_some] at hle
      omega
    rw [if_neg hordered, h.place key i row hrow]
    simp

/-- An index that represents its column has no fault. -/
theorem Stores.fault?_eq_none {ix : Runs κ} {l : Layout κ} {keys : Array (Option κ)}
    (h : ix.Stores l keys keys.size) (hl : l.IsPlaced keys keys.size) (column : String) :
    ix.fault? column = none := by
  have hrep := h.represents hl
  have hfaults : (ix.order.toList.filterMap fun key => ix.offsets[key]?).findSome?
      (fun offset => (List.range (ix.runLength offset)).findSome?
        (ix.placeFault? column offset)) = none := by
    rw [List.findSome?_eq_none_iff]
    intro offset hoffset
    obtain ⟨key, -, ho⟩ := List.mem_filterMap.1 hoffset
    rw [List.findSome?_eq_none_iff]
    intro i _
    exact hrep.placeFault?_eq_none column ho i
  -- As many rows are stored as have a key.
  have hsum : (l.order.toList.map (keyCount keys)).sum = keys.countP Option.isSome := by
    refine sum_keyCount_eq keys hl.nodup fun key hkey => (hl.mem_order key).2 fun hnil => ?_
    obtain ⟨row, hrow, heq⟩ := Array.getElem_of_mem hkey
    have : row ∈ occurrences keys key keys.size :=
      mem_occurrences.2 ⟨hrow, by rw [Array.getElem?_eq_getElem hrow, heq]⟩
    rw [hnil] at this
    exact absurd this List.not_mem_nil
  unfold fault?
  simp only [hfaults]
  rw [foldl_runLength, List.map_congr_left fun key _ => hrep.count_eq key, h.order_eq, hsum,
    hrep.nrIndexed_eq, Nat.zero_add, if_pos rfl]

/-- The rows of a column, stored one after another in the runs of its layout. -/
theorem stores_foldl {l : Layout κ} {keys : Array (Option κ)} (hl : l.IsPlaced keys keys.size)
    {start : Runs κ} (hstart : start.Stores l keys 0) :
    (keys.zipIdx.foldl (fun (ix : Runs κ) entry =>
      match entry.1.bind (l.offsets[·]?) with
      | some offset => ix.append offset entry.2
      | none => ix) start).Stores l keys keys.size := by
  have hsize : keys.zipIdx.size = keys.size := Array.size_zipIdx
  rw [← hsize]
  apply Array.foldl_induction (fun m (ix : Runs κ) => ix.Stores l keys m) hstart
  · rintro ⟨m, hm⟩ ix ih
    have hm' : m < keys.size := by simpa using hm
    have hget := Array.getElem?_eq_getElem hm'
    simp only [Fin.getElem_fin, Array.getElem_zipIdx, Nat.zero_add]
    cases hk : keys[m] with
    | none => exact ih.skip (by rw [hget, hk])
    | some key =>
      have hkey : keys[m]? = some (some key) := by rw [hget, hk]
      have hmem : m ∈ occurrences keys key keys.size := mem_occurrences.2 ⟨hm', hkey⟩
      -- The key occurs, so it has a place.
      have hc := (hl.contains key).2 ((hl.mem_order key).2 (List.ne_nil_of_mem hmem))
      rw [Std.HashMap.contains_eq_isSome_getElem?, Option.isSome_iff_exists] at hc
      obtain ⟨offset, ho⟩ := hc
      rw [Option.bind_some, ho]
      exact ih.append hl hkey ho

/-- **A column that fits gets an index that represents it.** -/
theorem ofKeys_eq_ok (column : String) (keys : Array (Option κ)) (hsize : keys.size < rowLimit)
    (hfit : FitsWords keys) : ∃ ix, ofKeys column keys = .ok ix ∧ ix.Represents keys := by
  have hl := Layout.ofKeys_isPlaced hfit
  have hstores := stores_foldl hl (stores_start hl)
  have hfault := hstores.fault?_eq_none hl column
  refine ⟨_, ?_, hstores.represents hl⟩
  unfold ofKeys
  rw [if_neg (by omega)]
  dsimp only
  split
  · rename_i e he
    exact absurd (hfault.symm.trans he) (by simp)
  · rfl

end Runs

end AdaptiveJoin
