import AdaptiveJoin.Proofs.Index.Exact

/-!
# Offsets of runs in 32-bit words

A column of fewer than `rowLimit` rows is admitted, but its runs need one slot more for every
different key (`slotCount`), and their offsets are words.

* `slotCount_lt_iff` — no sum of an offset and a run ever wraps around while the rows are laid out
  **iff** the rows with a key and the different keys are fewer than `2 ^ 32` together.
* `Runs.ofKeys_words` — then every offset is exact, lies below the largest word, and the index is
  built, with runs that do not overlap.
* `Runs.slotsOf_take_lt` — an index is never built on an offset that has wrapped around: the run
  would start inside of an earlier one, and the check finds every such run.  So a column of more
  than `2 ^ 31` different keys has no index, although it is admitted (`Runs.not_ofKeys_of_nodup`).
-/

namespace AdaptiveJoin

variable {κ : Type} [BEq κ]

/-- The number of slots that the runs of a column need. -/
def slotCount (keys : Array (Option κ)) : Nat :=
  keys.countP Option.isSome + (distinctKeys keys).length

variable [LawfulBEq κ]

theorem fitsWords_iff {keys : Array (Option κ)} :
    FitsWords keys ↔ slotCount keys < 2 ^ 32 := by
  constructor
  · intro h
    exact h (distinctKeys keys) (nodup_distinctKeys keys) fun key => mem_distinctKeys.1
  · intro h ks hks hmem
    have hlen : ks.length ≤ (distinctKeys keys).length :=
      hks.length_le_of_subset fun key hkey => mem_distinctKeys.2 (hmem key hkey)
    unfold slotCount at h
    omega

variable [Hashable κ] {keys : Array (Option κ)}

namespace Layout

/-! ### Layouts of the first rows -/

/-- The layout once the first `m` rows are seen. -/
def upTo (keys : Array (Option κ)) : Nat → Layout κ
  | 0 => ⟨#[], ∅, 0⟩
  | m + 1 =>
    match keys[m]?.join with
    | some key => (upTo keys m).place (countKeys keys) key
    | none => upTo keys m

omit [LawfulBEq κ] in
/-- In the end all rows are seen. -/
theorem ofKeys_eq_upTo (keys : Array (Option κ)) : ofKeys keys = upTo keys keys.size := by
  show keys.foldl _ _ = _
  apply Array.foldl_induction (fun m l => l = upTo keys m) rfl
  rintro ⟨m, hm⟩ l rfl
  rw [upTo, Array.getElem?_eq_getElem hm, Option.join_some]
  rfl

theorem upTo_isListed (keys : Array (Option κ)) (m : Nat) : (upTo keys m).IsListed keys m := by
  induction m with
  | zero => constructor <;> simp [upTo, occurrences, slotsOf]
  | succ m ih =>
    rw [upTo]
    cases hkey : keys[m]?.join with
    | none => exact ih.skip fun key h => by simp [h] at hkey
    | some key => exact ih.place (Option.join_eq_some_iff.1 hkey)

/-- A key that is new gets the next run. -/
theorem order_upTo_succ {m : Nat} {key : κ} (hkey : keys[m]? = some (some key))
    (hnew : key ∉ (upTo keys m).order.toList) :
    (upTo keys (m + 1)).order.toList = (upTo keys m).order.toList ++ [key] := by
  have hcontains : (upTo keys m).offsets.contains key = false := by
    rw [Bool.eq_false_iff]
    exact fun h => hnew (((upTo_isListed keys m).contains key).1 h)
  rw [upTo, hkey, Option.join_some]
  simp [place, hcontains]

/-- A row without a new key leaves the layout alone. -/
theorem upTo_succ_eq {m : Nat}
    (hold : ∀ key, keys[m]? = some (some key) → key ∈ (upTo keys m).order.toList) :
    upTo keys (m + 1) = upTo keys m := by
  rw [upTo]
  cases hkey : keys[m]?.join with
  | none => rfl
  | some key =>
    have hmem := hold key (Option.join_eq_some_iff.1 hkey)
    simp [place, ((upTo_isListed keys m).contains key).2 hmem]

/-! ### Slots -/

/-- The keys of a layout are the different keys of the column. -/
theorem IsListed.length_order {l : Layout κ} (h : l.IsListed keys keys.size) :
    l.order.toList.length = (distinctKeys keys).length := by
  apply List.Perm.length_eq
  rw [List.perm_ext_iff_of_nodup h.nodup (nodup_distinctKeys keys)]
  intro key
  rw [mem_distinctKeys]
  constructor
  · intro hkey
    obtain ⟨row, hrow⟩ := List.exists_mem_of_ne_nil _ ((h.mem_order key).1 hkey)
    exact Array.mem_of_getElem? (mem_occurrences.1 hrow).2
  · exact h.mem_order_of_mem key

/-- The runs of all keys take the slots of the column. -/
theorem IsListed.slotsOf_order {l : Layout κ} (h : l.IsListed keys keys.size) :
    slotsOf keys l.order.toList = slotCount keys := by
  rw [slotsOf_eq, h.length_order, sum_keyCount_eq keys h.nodup h.mem_order_of_mem]
  rfl

omit [LawfulBEq κ] [Hashable κ] in
@[simp]
theorem slotsOf_singleton (keys : Array (Option κ)) (key : κ) :
    slotsOf keys [key] = keyCount keys key + 1 := by
  simp [slotsOf]

/-- **No sum wraps around iff the slots of the column fit.** -/
theorem slotCount_lt_iff (keys : Array (Option κ)) :
    slotCount keys < 2 ^ 32 ↔
      ∀ m key, keys[m]? = some (some key) → key ∉ (upTo keys m).order.toList →
        (upTo keys m).next.toNat + (keyCount keys key + 1) < 2 ^ 32 := by
  constructor
  · intro hfit m key hkey hnew
    have hlisted := upTo_isListed keys (m + 1)
    have hslots := hlisted.slotsOf_lt (fitsWords_iff.2 hfit)
    have hnext := (upTo_isListed keys m).isPlaced
      ((upTo_isListed keys m).slotsOf_lt (fitsWords_iff.2 hfit)) |>.next
    rwa [order_upTo_succ hkey hnew, slotsOf_append, slotsOf_singleton, ← hnext] at hslots
  · intro hsums
    -- Without a wrap-around the offset of the next run counts the slots so far.
    have hnext (m : Nat) : (upTo keys m).next.toNat = slotsOf keys (upTo keys m).order.toList := by
      induction m with
      | zero => simp [upTo, slotsOf]
      | succ m ih =>
        by_cases hnew : ∃ key, keys[m]? = some (some key) ∧ key ∉ (upTo keys m).order.toList
        · obtain ⟨key, hkey, hnew⟩ := hnew
          have hsum := hsums m key hkey hnew
          have horder := order_upTo_succ hkey hnew
          rw [(upTo_isListed keys (m + 1)).next, horder, slotsOf_append, slotsOf_singleton, ← ih,
            UInt32.toNat_ofNat']
          exact Nat.mod_eq_of_lt hsum
        · rw [upTo_succ_eq, ih]
          intro key hkey
          by_contra hmem
          exact hnew ⟨key, hkey, hmem⟩
    have hend := upTo_isListed keys keys.size
    rw [← hend.slotsOf_order, ← hnext]
    exact (upTo keys keys.size).next.toNat_lt

omit [LawfulBEq κ] [Hashable κ] in
/-- A slot of some first runs lies in one of them. -/
theorem exists_run_of_lt (keys : Array (Option κ)) {ks : List κ} {i slot : Nat} (hi : i ≤ ks.length)
    (hslot : slot < slotsOf keys (ks.take i)) :
    ∃ j key, j < i ∧ ks[j]? = some key ∧ slotsOf keys (ks.take j) ≤ slot ∧
      slot ≤ slotsOf keys (ks.take j) + keyCount keys key := by
  induction i with
  | zero => simp [slotsOf] at hslot
  | succ i ih =>
    by_cases hbefore : slot < slotsOf keys (ks.take i)
    · obtain ⟨j, key, hj, hrest⟩ := ih (by omega) hbefore
      exact ⟨j, key, by omega, hrest⟩
    · have hget := List.getElem?_eq_getElem (show i < ks.length by omega)
      rw [← List.take_append_getElem hi, slotsOf_append, slotsOf_singleton] at hslot
      exact ⟨i, ks[i], Nat.lt_succ_self i, hget, by omega, by omega⟩

end Layout

namespace Runs

open Layout (upTo)

variable {column : String} {ix : Runs κ}

/-! ### Indexes -/

/-- **Offsets of a column that fits are exact**: no sum wraps around while the rows are laid out,
every run ends below the next offset and starts below the largest word, and the index is built,
represents the column, and has runs one behind the other. -/
theorem ofKeys_words (column : String) (keys : Array (Option κ)) (hsize : keys.size < rowLimit)
    (hfit : slotCount keys < 2 ^ 32) :
    (∀ m key, keys[m]? = some (some key) → key ∉ (upTo keys m).order.toList →
      (upTo keys m).next.toNat + (keyCount keys key + 1) < 2 ^ 32 ∧
        (upTo keys (m + 1)).next.toNat =
          (upTo keys m).next.toNat + (keyCount keys key + 1)) ∧
      (∀ m key offset, (upTo keys m).offsets[key]? = some offset →
        offset.toNat + keyCount keys key < (upTo keys m).next.toNat ∧ offset < 0xFFFFFFFF) ∧
      ∃ ix : Runs κ, ofKeys column keys = .ok ix ∧ ix.Represents keys ∧
        ∀ (key key' : κ) (offset offset' : UInt32), key ≠ key' →
          ix.offsets[key]? = some offset → ix.offsets[key']? = some offset' →
            offset.toNat + ix.runLength offset < offset'.toNat ∨
              offset'.toNat + ix.runLength offset' < offset.toNat := by
  have hwords := fitsWords_iff.2 hfit
  have hplaced (m : Nat) : (upTo keys m).IsPlaced keys m :=
    (Layout.upTo_isListed keys m).isPlaced ((Layout.upTo_isListed keys m).slotsOf_lt hwords)
  refine ⟨fun m key hkey hnew => ⟨?_, ?_⟩, fun m key offset ho => ?_, ?_⟩
  · exact (Layout.slotCount_lt_iff keys).1 hfit m key hkey hnew
  · rw [(hplaced (m + 1)).next, (hplaced m).next, Layout.order_upTo_succ hkey hnew, slotsOf_append,
      Layout.slotsOf_singleton]
  · have hrun := (hplaced m).fits key offset ho
    have hword := (upTo keys m).next.toNat_lt
    refine ⟨hrun, UInt32.lt_iff_toNat_lt.2 ?_⟩
    show offset.toNat < 2 ^ 32 - 1
    omega
  · obtain ⟨ix, hix, hrep⟩ := ofKeys_eq_ok column keys hsize hwords
    have hoffsets : ix.offsets = (upTo keys keys.size).offsets := by
      rw [(eq_stored_of_ofKeys hix).1, (stored_frame _ keys _).2.1, Layout.ofKeys_eq_upTo]
    refine ⟨ix, hix, hrep, fun key key' offset offset' hne ho ho' => ?_⟩
    -- The runs that are built have the places of the layout, which do not overlap.
    rw [hrep.runLength key offset ho, hrep.runLength key' offset' ho']
    exact (hplaced keys.size).disjoint key key' offset offset' hne (hoffsets ▸ ho) (hoffsets ▸ ho')

theorem ofKeys_words_sample :
    keysSample.size < rowLimit ∧ slotCount keysSample < 2 ^ 32 ∧
      ∃ ix, ofKeys "x" keysSample = .ok ix ∧ ix.Represents keysSample := by
  have hsize : keysSample.size < rowLimit := by decide
  have hfit : slotCount keysSample < 2 ^ 32 := by decide
  obtain ⟨-, -, ix, hix, hrep, -⟩ := ofKeys_words "x" keysSample hsize hfit
  exact ⟨hsize, hfit, ix, hix, hrep⟩

omit [LawfulBEq κ] in
/-- Only admitted columns have an index. -/
theorem size_lt_of_ofKeys (h : ofKeys column keys = .ok ix) : keys.size < rowLimit := by
  by_contra hge
  unfold ofKeys at h
  rw [if_pos (Nat.not_lt.1 hge)] at h
  exact absurd h (by simp)

omit [LawfulBEq κ] [Hashable κ] in
theorem keyCount_le_size (keys : Array (Option κ)) (key : κ) : keyCount keys key ≤ keys.size := by
  have hle := List.length_filter_le (fun row => keys[row]? == some (some key))
    (List.range keys.size)
  rwa [List.length_range] at hle

/-- **An index is built only on offsets that have not wrapped around.** -/
theorem slotsOf_take_lt (h : ofKeys column keys = .ok ix) {i : Nat}
    (hi : i < (Layout.ofKeys keys).order.toList.length) :
    slotsOf keys ((Layout.ofKeys keys).order.toList.take i) < 2 ^ 32 := by
  have hl := Layout.ofKeys_isListed keys
  have hfault := (eq_stored_of_ofKeys h).1 ▸ (eq_stored_of_ofKeys h).2
  have hlengths := hasLengths_of_fault? hl hfault
  have hplaces := hasPlaces_of_fault? hl hfault
  have hsize := size_lt_of_ofKeys h
  have hoffset := hl.offset
  have hnodup := hl.nodup
  generalize (Layout.ofKeys keys).order.toList = ks at hi hoffset hnodup ⊢
  induction i with
  | zero => simp [slotsOf]
  | succ i ih =>
    specialize ih (by omega)
    obtain ⟨key, hkey⟩ : ∃ key, ks[i + 1]? = some key := ⟨_, List.getElem?_eq_getElem hi⟩
    have hcount := keyCount_le_size keys ks[i]
    have hsplit : slotsOf keys (ks.take (i + 1)) =
        slotsOf keys (ks.take i) + (keyCount keys ks[i] + 1) := by
      rw [← List.take_append_getElem (show i < ks.length by omega), slotsOf_append,
        Layout.slotsOf_singleton]
    by_contra hge
    unfold rowLimit at hsize
    -- A wrapped offset is a slot of one of the runs before, all of which start where they should.
    have hslot : slotsOf keys (ks.take (i + 1)) - 2 ^ 32 < slotsOf keys (ks.take i) := by omega
    obtain ⟨j, k, hj, hk, hstart, hend⟩ :=
      Layout.exists_run_of_lt keys (show i ≤ ks.length by omega) hslot
    have hne : k ≠ key := by
      rintro rfl
      have := (List.getElem?_inj hi hnodup).1 (hkey.trans hk.symm)
      omega
    have hwrapped : (UInt32.ofNat (slotsOf keys (ks.take (i + 1)))).toNat =
        slotsOf keys (ks.take (i + 1)) - 2 ^ 32 := by
      rw [UInt32.toNat_ofNat']
      omega
    have hexact : (UInt32.ofNat (slotsOf keys (ks.take j))).toNat =
        slotsOf keys (ks.take j) := by
      have := slotsOf_take_add_lt keys hk hj
      rw [UInt32.toNat_ofNat']
      omega
    have hbehind := hlengths.offset_add_lt hl hplaces (hoffset j k hk) (hoffset (i + 1) key hkey)
      hne.symm (by omega)
    omega

/-! ### Very many keys -/

section Nodup

variable {ks : List κ} (hnodup : ks.Nodup)

include hnodup

omit [Hashable κ] in
/-- In a column without repetition every key has one row. -/
theorem keyCount_of_nodup {key : κ} (hkey : key ∈ ks) :
    keyCount (ks.map some).toArray key = 1 := by
  rw [keyCount_eq_count, List.count_toArray]
  apply List.count_eq_one_of_mem
  · exact hnodup.map fun _ _ => Option.some.inj
  · exact List.mem_map_of_mem hkey

omit [Hashable κ] in
/-- The runs of a column without repetition take two slots each. -/
theorem slotsOf_of_nodup {ks' : List κ} (hsub : ks' ⊆ ks) :
    slotsOf (ks.map some).toArray ks' = 2 * ks'.length := by
  have hone : ks'.map (keyCount (ks.map some).toArray) = List.replicate ks'.length 1 := by
    rw [List.eq_replicate_iff, List.length_map]
    refine ⟨rfl, fun count hcount => ?_⟩
    obtain ⟨key, hkey, rfl⟩ := List.mem_map.1 hcount
    exact keyCount_of_nodup hnodup (hsub hkey)
  rw [slotsOf_eq, hone, List.sum_replicate]
  simp
  omega

/-- The layout of a column without repetition lists all its keys. -/
theorem order_of_nodup : (Layout.ofKeys (ks.map some).toArray).order.toList.Perm ks := by
  have hl := Layout.ofKeys_isListed (ks.map some).toArray
  rw [List.perm_ext_iff_of_nodup hl.nodup hnodup]
  intro key
  constructor
  · intro hkey
    obtain ⟨row, hrow⟩ := List.exists_mem_of_ne_nil _ ((hl.mem_order key).1 hkey)
    have hmem := Array.mem_of_getElem? (mem_occurrences.1 hrow).2
    simpa using hmem
  · intro hkey
    apply hl.mem_order_of_mem
    simpa using hkey

theorem slotCount_of_nodup : slotCount (ks.map some).toArray = 2 * ks.length := by
  have hl := Layout.ofKeys_isListed (ks.map some).toArray
  have hperm := order_of_nodup hnodup
  rw [← hl.slotsOf_order, slotsOf_of_nodup hnodup hperm.subset, hperm.length_eq]

variable (hlength : 2 ^ 31 < ks.length)

include hlength

/-- The run of key number `2 ^ 31` wraps around to the start. -/
theorem exists_wrapped_of_nodup : ∃ i < (Layout.ofKeys (ks.map some).toArray).order.toList.length,
    0 < i ∧ slotsOf (ks.map some).toArray
      ((Layout.ofKeys (ks.map some).toArray).order.toList.take i) = 2 ^ 32 := by
  have hperm := order_of_nodup hnodup
  refine ⟨2 ^ 31, hperm.length_eq ▸ hlength, by omega, ?_⟩
  rw [slotsOf_of_nodup hnodup fun key hkey => hperm.subset (List.mem_of_mem_take hkey),
    List.length_take, hperm.length_eq]
  omega

/-- Two keys have their runs at the start. -/
theorem exists_shared_offset_of_nodup : ∃ key key' : κ, key ≠ key' ∧
    (Layout.ofKeys (ks.map some).toArray).offsets[key]? = some (0 : UInt32) ∧
      (Layout.ofKeys (ks.map some).toArray).offsets[key']? = some (0 : UInt32) := by
  have hl := Layout.ofKeys_isListed (ks.map some).toArray
  obtain ⟨i, hi, hpos, hslots⟩ := exists_wrapped_of_nodup hnodup hlength
  have hget {j : Nat} (hj : j < (Layout.ofKeys (ks.map some).toArray).order.toList.length) :
      ∃ key, (Layout.ofKeys (ks.map some).toArray).order.toList[j]? = some key :=
    ⟨_, List.getElem?_eq_getElem hj⟩
  obtain ⟨first, hfirst⟩ := hget (Nat.lt_trans hpos hi)
  obtain ⟨last, hlast⟩ := hget hi
  -- The first key and the one behind the wrapped sum share the offset 0.
  refine ⟨first, last, ?_, hl.offset 0 first hfirst, ?_⟩
  · rintro rfl
    have := (List.getElem?_inj hi hl.nodup).1 (hlast.trans hfirst.symm)
    omega
  · rw [hl.offset i last hlast, hslots]
    rfl

/-- **A column of more than `2 ^ 31` different keys has no index.** -/
theorem not_ofKeys_of_nodup : ofKeys column (ks.map some).toArray ≠ .ok ix := by
  intro h
  obtain ⟨i, hi, -, hslots⟩ := exists_wrapped_of_nodup hnodup hlength
  have hlt := slotsOf_take_lt h hi
  omega

end Nodup

/-- A column with a different key in each row. -/
def countingKeys (n : Nat) : Array (Option Int64) :=
  (((List.range n).map Int64.ofNat).map some).toArray

theorem nodup_counting {n : Nat} (hn : n ≤ 2 ^ 63) : ((List.range n).map Int64.ofNat).Nodup := by
  apply List.nodup_range.map_on
  intro i hi j hj heq
  rw [List.mem_range] at hi hj
  have htoInt {k : Nat} (hk : k < n) : (Int64.ofNat k).toInt = k :=
    Int64.toInt_ofNat_of_lt (by omega)
  have := congrArg Int64.toInt heq
  rw [htoInt hi, htoInt hj] at this
  omega

/-- A column of `2 ^ 31 + 1` different keys is admitted, but a sum wraps around while its runs are
laid out, two keys share an offset, and there is no index. -/
theorem ofKeys_words_wrapped :
    (countingKeys (2 ^ 31 + 1)).size < rowLimit ∧
      (∃ m key, (countingKeys (2 ^ 31 + 1))[m]? = some (some key) ∧
        key ∉ (upTo (countingKeys (2 ^ 31 + 1)) m).order.toList ∧
        2 ^ 32 ≤ (upTo (countingKeys (2 ^ 31 + 1)) m).next.toNat +
          (keyCount (countingKeys (2 ^ 31 + 1)) key + 1)) ∧
      (∃ key key' : Int64, key ≠ key' ∧
        (Layout.ofKeys (countingKeys (2 ^ 31 + 1))).offsets[key]? = some (0 : UInt32) ∧
          (Layout.ofKeys (countingKeys (2 ^ 31 + 1))).offsets[key']? = some (0 : UInt32)) ∧
      ∀ ix, ofKeys "x" (countingKeys (2 ^ 31 + 1)) ≠ .ok ix := by
  have hnodup := nodup_counting (n := 2 ^ 31 + 1) (by omega)
  have hlength : ((List.range (2 ^ 31 + 1)).map Int64.ofNat).length = 2 ^ 31 + 1 := by
    rw [List.length_map, List.length_range]
  have hlarge : 2 ^ 31 < ((List.range (2 ^ 31 + 1)).map Int64.ofNat).length := by omega
  refine ⟨?_, ?_, exists_shared_offset_of_nodup hnodup hlarge,
    fun ix => not_ofKeys_of_nodup hnodup hlarge⟩
  · rw [countingKeys, List.size_toArray, List.length_map, hlength, rowLimit]
    omega
  · by_contra hnone
    -- If every sum fitted, all slots together would, but there are two for every key.
    have hfit := (Layout.slotCount_lt_iff (countingKeys (2 ^ 31 + 1))).2 fun m key hkey hnew =>
      Nat.not_le.1 fun hle => hnone ⟨m, key, hkey, hnew, hle⟩
    rw [countingKeys, slotCount_of_nodup hnodup, hlength] at hfit
    omega

end Runs

end AdaptiveJoin
