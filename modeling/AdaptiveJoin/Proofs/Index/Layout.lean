import Mathlib.Algebra.BigOperators.Group.List.Lemmas
import Mathlib.Algebra.Order.BigOperators.Group.List
import Mathlib.Algebra.Ring.Nat
import Mathlib.Data.List.Nodup
import AdaptiveJoin.Index.Runs

/-!
# The layout of runs

`occurrences keys key m` lists the rows below `m` that hold a key.  The layout places the run of
every key that occurs behind the others: run offsets do not wrap around and runs do not overlap as
long as the rows with a key and the distinct keys together are fewer than `2 ^ 32`
(`Layout.ofKeys_isPlaced`).
-/

namespace AdaptiveJoin

/-! ### Occurrences -/

variable {κ : Type} [BEq κ]

/-- The rows below `m` that hold a key, ascending. -/
def occurrences (keys : Array (Option κ)) (key : κ) (m : Nat) : List Nat :=
  (List.range m).filter fun row => keys[row]? == some (some key)

theorem occurrences_succ (keys : Array (Option κ)) (key : κ) (m : Nat) :
    occurrences keys key (m + 1) =
      occurrences keys key m ++ if keys[m]? == some (some key) then [m] else [] := by
  unfold occurrences
  rw [List.range_succ, List.filter_append, ← occurrences]
  congr 1
  cases h : keys[m]? == some (some key) <;> simp only [List.filter, h] <;> rfl

theorem pairwise_occurrences (keys : Array (Option κ)) (key : κ) (m : Nat) :
    (occurrences keys key m).Pairwise (· < ·) :=
  List.pairwise_lt_range.filter _

/-- Later rows only add occurrences. -/
theorem length_occurrences_mono (keys : Array (Option κ)) (key : κ) {m m' : Nat} (h : m ≤ m') :
    (occurrences keys key m).length ≤ (occurrences keys key m').length := by
  induction h with
  | refl => rfl
  | step _ ih =>
    rw [occurrences_succ, List.length_append]
    omega

/-- The number of rows that hold a key. -/
def keyCount (keys : Array (Option κ)) (key : κ) : Nat := (occurrences keys key keys.size).length

variable [LawfulBEq κ]

theorem mem_occurrences {keys : Array (Option κ)} {key : κ} {m row : Nat} :
    row ∈ occurrences keys key m ↔ row < m ∧ keys[row]? = some (some key) := by
  unfold occurrences
  rw [List.mem_filter, List.mem_range, beq_iff_eq]

theorem occurrences_succ_self {keys : Array (Option κ)} {key : κ} {m : Nat}
    (h : keys[m]? = some (some key)) :
    occurrences keys key (m + 1) = occurrences keys key m ++ [m] := by
  rw [occurrences_succ, h, beq_self_eq_true, if_pos rfl]

theorem occurrences_succ_of_ne {keys : Array (Option κ)} {key : κ} {m : Nat}
    (h : keys[m]? ≠ some (some key)) : occurrences keys key (m + 1) = occurrences keys key m := by
  rw [occurrences_succ, if_neg (by simpa using h), List.append_nil]

/-- A row with another key is no occurrence. -/
theorem occurrences_succ_of_key_ne {keys : Array (Option κ)} {key k : κ} {m : Nat}
    (h : keys[m]? = some (some key)) (hne : k ≠ key) :
    occurrences keys k (m + 1) = occurrences keys k m :=
  occurrences_succ_of_ne fun hk => hne (Option.some.inj (Option.some.inj (hk.symm.trans h)))

/-- The keys that occur up to a row are its own and those that occur before it. -/
theorem occurrences_succ_ne_nil_iff {keys : Array (Option κ)} {key : κ} {m : Nat}
    (h : keys[m]? = some (some key)) (k : κ) :
    occurrences keys k (m + 1) ≠ [] ↔ k = key ∨ occurrences keys k m ≠ [] := by
  by_cases heq : k = key
  · subst heq
    rw [occurrences_succ_self h]
    simp
  · rw [occurrences_succ_of_key_ne h heq]
    simp [heq]

/-- A row is an occurrence at some place up to itself: the next one, or one from before. -/
theorem getElem?_occurrences_succ {keys : Array (Option κ)} {key : κ} {m i row : Nat}
    (h : (occurrences keys key (m + 1))[i]? = some row) :
    (occurrences keys key m)[i]? = some row ∨
      (row = m ∧ i = (occurrences keys key m).length ∧ keys[m]? = some (some key)) := by
  by_cases hkey : keys[m]? = some (some key)
  · rw [occurrences_succ_self hkey] at h
    by_cases hi : i < (occurrences keys key m).length
    · rw [List.getElem?_append_left hi] at h
      exact Or.inl h
    · rw [List.getElem?_append_right (Nat.not_lt.1 hi), List.getElem?_singleton] at h
      split at h
      · exact Or.inr ⟨(Option.some.inj h).symm, by omega, hkey⟩
      · exact absurd h (by simp)
  · rw [occurrences_succ_of_ne hkey] at h
    exact Or.inl h

/-- A row with a key is its last occurrence so far. -/
theorem length_occurrences_lt_keyCount {keys : Array (Option κ)} {key : κ} {m : Nat}
    (h : keys[m]? = some (some key)) :
    (occurrences keys key m).length < keyCount keys key := by
  have hm : m < keys.size := by
    by_contra hge
    simp [Array.getElem?_eq_none (Nat.not_lt.1 hge)] at h
  have hsucc : (occurrences keys key (m + 1)).length = (occurrences keys key m).length + 1 := by
    rw [occurrences_succ_self h, List.length_append, List.length_singleton]
  have := length_occurrences_mono keys key (show m + 1 ≤ keys.size from hm)
  unfold keyCount
  omega

/-! ### Counts -/

/-- The entries of an array with a property, counted by their places. -/
theorem length_filter_getElem? {α : Type} (xs : Array α) (p : Option α → Bool) :
    ((List.range xs.size).filter fun i => p xs[i]?).length = xs.countP fun x => p (some x) := by
  have hlist : (List.range xs.size).map (fun i => xs[i]?) = xs.toList.map some := by
    apply List.ext_getElem (by simp)
    intro i hi _
    have hlt : i < xs.size := by simpa using hi
    simp [hlt]
  have hcount := congrArg (List.countP p) hlist
  rw [List.countP_map, List.countP_map, List.countP_eq_length_filter, Array.countP_toList] at hcount
  exact hcount

omit [BEq κ] [LawfulBEq κ] in
/-- The rows that hold some key. -/
theorem length_keyedRows (keys : Array (Option κ)) :
    ((List.range keys.size).filter fun row => keys[row]?.join.isSome).length =
      keys.countP Option.isSome :=
  length_filter_getElem? keys (·.join.isSome)

theorem nodup_flatMap_occurrences (keys : Array (Option κ)) {ks : List κ} (hks : ks.Nodup)
    (m : Nat) : (ks.flatMap fun key => occurrences keys key m).Nodup := by
  refine List.nodup_flatMap.2 ⟨fun key _ => (pairwise_occurrences keys key m).imp Nat.ne_of_lt, ?_⟩
  refine hks.imp fun {key key'} hne row hrow hrow' => hne ?_
  rw [mem_occurrences] at hrow hrow'
  simpa using hrow.2.symm.trans hrow'.2

theorem flatMap_occurrences_subset (keys : Array (Option κ)) (ks : List κ) :
    (ks.flatMap fun key => occurrences keys key keys.size) ⊆
      (List.range keys.size).filter fun row => keys[row]?.join.isSome := by
  intro row hrow
  obtain ⟨key, -, hkey⟩ := List.mem_flatMap.1 hrow
  rw [mem_occurrences] at hkey
  rw [List.mem_filter, List.mem_range, hkey.2]
  exact ⟨hkey.1, rfl⟩

omit [LawfulBEq κ] in
theorem length_flatMap_occurrences (keys : Array (Option κ)) (ks : List κ) :
    (ks.flatMap fun key => occurrences keys key keys.size).length =
      (ks.map (keyCount keys)).sum := by
  rw [List.length_flatMap]
  rfl

/-- Distinct keys have no more occurrences together than there are rows with a key. -/
theorem sum_keyCount_le (keys : Array (Option κ)) {ks : List κ} (hks : ks.Nodup) :
    (ks.map (keyCount keys)).sum ≤ keys.countP Option.isSome := by
  rw [← length_keyedRows, ← length_flatMap_occurrences]
  exact (nodup_flatMap_occurrences keys hks _).length_le_of_subset
    (flatMap_occurrences_subset keys ks)

/-- The keys that occur have as many occurrences together as there are rows with a key. -/
theorem sum_keyCount_eq (keys : Array (Option κ)) {ks : List κ} (hks : ks.Nodup)
    (hall : ∀ key, some key ∈ keys → key ∈ ks) :
    (ks.map (keyCount keys)).sum = keys.countP Option.isSome := by
  apply le_antisymm (sum_keyCount_le keys hks)
  rw [← length_keyedRows, ← length_flatMap_occurrences]
  apply (List.nodup_range.filter _).length_le_of_subset
  intro row hrow
  rw [List.mem_filter, List.mem_range] at hrow
  obtain ⟨hlt, hsome⟩ := hrow
  rw [Array.getElem?_eq_getElem hlt] at hsome
  obtain ⟨key, hkey⟩ := Option.isSome_iff_exists.1 hsome
  have hkey : keys[row] = some key := hkey
  refine List.mem_flatMap.2 ⟨key, hall key (hkey ▸ Array.getElem_mem hlt), ?_⟩
  rw [mem_occurrences, Array.getElem?_eq_getElem hlt, hkey]
  exact ⟨hlt, rfl⟩

/-- The rows with a key and the distinct keys together are fewer than `2 ^ 32`. -/
def FitsWords (keys : Array (Option κ)) : Prop :=
  ∀ ks : List κ, ks.Nodup → (∀ key ∈ ks, some key ∈ keys) →
    keys.countP Option.isSome + ks.length < 2 ^ 32

omit [BEq κ] [LawfulBEq κ] in
/-- Columns of fewer than `2 ^ 31` rows fit. -/
theorem fitsWords_of_size_lt {keys : Array (Option κ)} (h : keys.size < 2 ^ 31) :
    FitsWords keys := by
  intro ks hks hmem
  have hcount : keys.countP Option.isSome ≤ keys.size := Array.countP_le_size
  have hlen : (ks.map some).length ≤ keys.toList.length := by
    apply (hks.map fun _ _ => Option.some.inj).length_le_of_subset
    intro k? hk
    obtain ⟨key, hkey, rfl⟩ := List.mem_map.1 hk
    exact Array.mem_toList_iff.2 (hmem key hkey)
  rw [List.length_map, show keys.toList.length = keys.size from rfl] at hlen
  omega

variable [Hashable κ]

theorem countKeys_getD (keys : Array (Option κ)) (key : κ) :
    (countKeys keys).getD key 0 = keyCount keys key := by
  revert key
  -- After some cells, each key has been counted as often as it occurs among them.
  refine Array.foldl_induction
    (fun m (counts : Std.HashMap κ Nat) =>
      ∀ key : κ, counts.getD key 0 = (occurrences keys key m).length) ?_ ?_
  · intro key
    simp [occurrences]
  · rintro ⟨m, hm⟩ counts ih key
    rw [occurrences_succ, List.length_append, ← ih key, Array.getElem?_eq_getElem hm]
    dsimp only [Fin.getElem_fin]
    cases keys[m] with
    | none => simp
    | some k =>
      dsimp only
      rw [Std.HashMap.getD_insert]
      by_cases heq : k = key
      · subst heq
        simp
      · simp [heq]

/-! ### Listed runs -/

/-- The number of slots of the runs of some keys. -/
def slotsOf (keys : Array (Option κ)) (ks : List κ) : Nat :=
  (ks.map fun key => keyCount keys key + 1).sum

omit [LawfulBEq κ] [Hashable κ] in
theorem slotsOf_append (keys : Array (Option κ)) (ks ks' : List κ) :
    slotsOf keys (ks ++ ks') = slotsOf keys ks + slotsOf keys ks' := by
  unfold slotsOf
  rw [List.map_append, List.sum_append]

omit [LawfulBEq κ] [Hashable κ] in
theorem slotsOf_eq (keys : Array (Option κ)) (ks : List κ) :
    slotsOf keys ks = (ks.map (keyCount keys)).sum + ks.length := by
  unfold slotsOf
  induction ks with
  | nil => rfl
  | cons k ks ih =>
    simp only [List.map_cons, List.sum_cons, List.length_cons, ih]
    omega

omit [LawfulBEq κ] [Hashable κ] in
/-- The run of a key lies between the runs before it and those behind it. -/
theorem slotsOf_take_add_lt (keys : Array (Option κ)) {ks : List κ} {i i' : Nat} {key : κ}
    (hkey : ks[i]? = some key) (hlt : i < i') :
    slotsOf keys (ks.take i) + keyCount keys key < slotsOf keys (ks.take i') := by
  obtain ⟨hi, rfl⟩ := List.getElem?_eq_some_iff.1 hkey
  have hsplit := List.take_append_drop (i + 1) (ks.take i')
  rw [List.take_take, Nat.min_eq_left hlt, ← List.take_append_getElem hi] at hsplit
  rw [← hsplit, slotsOf_append, slotsOf_append]
  unfold slotsOf
  rw [List.map_singleton, List.sum_singleton]
  omega

/-- The keys that occur below row `m` have runs one behind the other, in the order of their first
occurrences; offsets wrap around. -/
structure Layout.IsListed (l : Layout κ) (keys : Array (Option κ)) (m : Nat) : Prop where
  nodup : l.order.toList.Nodup
  mem_order : ∀ key, key ∈ l.order.toList ↔ occurrences keys key m ≠ []
  contains : ∀ key, l.offsets.contains key = true ↔ key ∈ l.order.toList
  next : l.next = UInt32.ofNat (slotsOf keys l.order.toList)
  offset : ∀ i key, l.order.toList[i]? = some key →
    l.offsets[key]? = some (UInt32.ofNat (slotsOf keys (l.order.toList.take i)))
  first : ∀ key, 0 < m → keys[0]? = some (some key) → l.order.toList[0]? = some key

/-- The offsets once a new key is placed. -/
theorem getElem?_insert_eq_some {offsets : Std.HashMap κ UInt32} {key k : κ} {next offset : UInt32}
    (h : (offsets.insert key next)[k]? = some offset) :
    (k = key ∧ offset = next) ∨ (k ≠ key ∧ offsets[k]? = some offset) := by
  rw [Std.HashMap.getElem?_insert] at h
  by_cases heq : key = k
  · subst heq
    simp only [beq_self_eq_true, ↓reduceIte, Option.some.injEq] at h
    exact Or.inl ⟨rfl, h.symm⟩
  · simp only [beq_iff_eq, heq, ↓reduceIte] at h
    exact Or.inr ⟨Ne.symm heq, h⟩

namespace Layout.IsListed

variable {l : Layout κ} {keys : Array (Option κ)} {m : Nat}

omit [LawfulBEq κ] in
/-- Before the first row no key is listed. -/
theorem order_eq_nil (h : l.IsListed keys 0) : l.order.toList = [] := by
  refine List.eq_nil_iff_forall_not_mem.2 fun key hkey => ?_
  exact (h.mem_order key).1 hkey rfl

/-- Placing the key of the next row. -/
theorem place (h : l.IsListed keys m) {key : κ} (hkey : keys[m]? = some (some key)) :
    (l.place (countKeys keys) key).IsListed keys (m + 1) := by
  have hmem := occurrences_succ_ne_nil_iff hkey
  unfold Layout.place
  split
  · -- The key has a run already.
    rename_i hc
    have hplaced := (h.mem_order key).1 ((h.contains key).1 hc)
    refine { h with mem_order := fun k => ?_, first := fun k _ hk => h.first k ?_ hk }
    · rw [hmem, h.mem_order]
      constructor
      · exact Or.inr
      · rintro (rfl | hk)
        · exact hplaced
        · exact hk
    · exact Nat.pos_of_ne_zero fun hzero => hplaced (hzero ▸ rfl)
  · rename_i hc
    have hnot : key ∉ l.order.toList := fun hk => hc ((h.contains key).2 hk)
    constructor
    · rw [Array.toList_push]
      refine List.nodup_append.2 ⟨h.nodup, List.nodup_singleton key, ?_⟩
      rintro a ha b hb rfl
      exact hnot (List.mem_singleton.1 hb ▸ ha)
    · intro k
      rw [hmem, ← h.mem_order]
      simp [or_comm]
    · intro k
      rw [Std.HashMap.contains_insert, Bool.or_eq_true, h.contains, beq_iff_eq,
        Array.toList_push, List.mem_append, List.mem_singleton]
      exact ⟨fun hk => hk.elim (fun e => Or.inr e.symm) Or.inl,
        fun hk => hk.elim Or.inr fun e => Or.inl e.symm⟩
    · -- The next free slot lies behind the new run.
      have hrun : slotsOf keys [key] = (countKeys keys).getD key 0 + 1 := by
        rw [countKeys_getD]
        rfl
      show l.next + UInt32.ofNat ((countKeys keys).getD key 0 + 1) = _
      rw [Array.toList_push, slotsOf_append, UInt32.ofNat_add (slotsOf keys _), ← h.next, hrun]
    · intro i k hk
      rw [Array.toList_push] at hk ⊢
      -- The places of the other keys stay, and the new key is last.
      by_cases hi : i < l.order.toList.length
      · rw [List.getElem?_append_left hi] at hk
        rw [List.take_append_of_le_length (Nat.le_of_lt hi), ← h.offset i k hk,
          Std.HashMap.getElem?_insert, if_neg]
        rw [beq_iff_eq]
        rintro rfl
        exact hnot (List.mem_of_getElem? hk)
      · rw [List.getElem?_append_right (Nat.not_lt.1 hi), List.getElem?_singleton] at hk
        split at hk
        · obtain rfl := Option.some.inj hk
          obtain rfl : i = l.order.toList.length := by omega
          rw [List.take_left' rfl, ← h.next, Std.HashMap.getElem?_insert_self]
        · exact absurd hk (by simp)
    · intro k _ hk
      rw [Array.toList_push]
      -- The key of the first row stays the first one.
      rcases Nat.eq_zero_or_pos m with rfl | hpos
      · rw [h.order_eq_nil]
        rw [hkey] at hk
        exact Option.some.inj hk
      · have hfirst := h.first k hpos hk
        rwa [List.getElem?_append_left (List.getElem?_eq_some_iff.1 hfirst).1]

/-- A row without a key lists nothing. -/
theorem skip (h : l.IsListed keys m) (hnone : ∀ key, keys[m]? ≠ some (some key)) :
    l.IsListed keys (m + 1) := by
  refine { h with mem_order := fun key => ?_, first := fun key _ hkey => ?_ }
  · rw [h.mem_order, occurrences_succ_of_ne (hnone key)]
  · refine h.first key (Nat.pos_of_ne_zero fun hzero => ?_) hkey
    exact hnone key (hzero ▸ hkey)

theorem mem_order_of_offset (h : l.IsListed keys m) {key : κ} {offset : UInt32}
    (ho : l.offsets[key]? = some offset) : key ∈ l.order.toList := by
  rw [← h.contains, Std.HashMap.contains_eq_isSome_getElem?, ho]
  rfl

theorem exists_offset (h : l.IsListed keys m) {key : κ} (hkey : key ∈ l.order.toList) :
    ∃ offset, l.offsets[key]? = some offset := by
  rw [← h.contains, Std.HashMap.contains_eq_isSome_getElem?] at hkey
  exact Option.isSome_iff_exists.1 hkey

/-- All keys of the column are listed. -/
theorem mem_order_of_mem (h : l.IsListed keys keys.size) (key : κ) (hkey : some key ∈ keys) :
    key ∈ l.order.toList := by
  obtain ⟨row, hrow, heq⟩ := Array.getElem_of_mem hkey
  refine (h.mem_order key).2 (List.ne_nil_of_mem (a := row) (mem_occurrences.2 ⟨hrow, ?_⟩))
  rw [Array.getElem?_eq_getElem hrow, heq]

omit [LawfulBEq κ] in
/-- The run of the first row lies at the start. -/
theorem offset_eq_zero (h : l.IsListed keys m) (hm : 0 < m) {key : κ}
    (hkey : keys[0]? = some (some key)) : l.offsets[key]? = some 0 :=
  h.offset 0 key (h.first key hm hkey)

/-- Every run that has an offset is listed. -/
theorem exists_getElem? (h : l.IsListed keys m) {key : κ} {offset : UInt32}
    (ho : l.offsets[key]? = some offset) : ∃ i, l.order.toList[i]? = some key ∧
      offset = UInt32.ofNat (slotsOf keys (l.order.toList.take i)) := by
  obtain ⟨i, hi⟩ := List.mem_iff_getElem?.1 (h.mem_order_of_offset ho)
  exact ⟨i, hi, Option.some.inj (ho.symm.trans (h.offset i key hi))⟩

/-- Behind a first run of one row, the next one has offset two. -/
theorem exists_second (h : l.IsListed keys m) (hm : 0 < m) {key k : κ} {offset : UInt32}
    (hkey : keys[0]? = some (some key)) (hone : keyCount keys key = 1)
    (ho : l.offsets[k]? = some offset) (hne : k ≠ key) :
    ∃ k' : κ, l.offsets[k']? = some (2 : UInt32) := by
  have hfirst := h.first key hm hkey
  obtain ⟨j, hj, -⟩ := h.exists_getElem? ho
  have hj0 : j ≠ 0 := by
    rintro rfl
    exact hne (Option.some.inj (hj.symm.trans hfirst))
  have hlt : 1 < l.order.toList.length :=
    Nat.lt_of_le_of_lt (Nat.pos_of_ne_zero hj0) (List.getElem?_eq_some_iff.1 hj).1
  have hnext := h.offset 1 _ (List.getElem?_eq_getElem hlt)
  -- The first run has one row, so the second one begins two slots behind it.
  have htwo : slotsOf keys (l.order.toList.take 1) = 2 := by
    rw [List.take_one, List.head?_eq_getElem?, hfirst]
    simp [slotsOf, hone]
  exact ⟨_, htwo ▸ hnext⟩

end Layout.IsListed

/-- **The runs of a layout are listed in the order of their keys.** -/
theorem Layout.ofKeys_isListed (keys : Array (Option κ)) :
    (Layout.ofKeys keys).IsListed keys keys.size := by
  refine Array.foldl_induction (fun m l => Layout.IsListed l keys m) ?_ ?_
  · constructor <;> simp [occurrences, slotsOf]
  · rintro ⟨m, hm⟩ l ih
    have hget := Array.getElem?_eq_getElem hm
    dsimp only [Fin.getElem_fin]
    cases hk : keys[m] with
    | none => exact ih.skip fun key => by rw [hget, hk]; simp
    | some key => exact ih.place (by rw [hget, hk])

/-! ### Placed runs -/

/-- The runs of the keys that occur below row `m` lie one behind the other, from the start on. -/
structure Layout.IsPlaced (l : Layout κ) (keys : Array (Option κ)) (m : Nat) : Prop where
  nodup : l.order.toList.Nodup
  mem_order : ∀ key, key ∈ l.order.toList ↔ occurrences keys key m ≠ []
  contains : ∀ key, l.offsets.contains key = true ↔ key ∈ l.order.toList
  next : l.next.toNat = slotsOf keys l.order.toList
  fits : ∀ key offset, l.offsets[key]? = some offset →
    offset.toNat + keyCount keys key < l.next.toNat
  disjoint : ∀ key key' offset offset', key ≠ key' → l.offsets[key]? = some offset →
    l.offsets[key']? = some offset' →
      offset.toNat + keyCount keys key < offset'.toNat ∨
        offset'.toNat + keyCount keys key' < offset.toNat

/-- Offsets that do not wrap around place the runs. -/
theorem Layout.IsListed.isPlaced {l : Layout κ} {keys : Array (Option κ)} {m : Nat}
    (h : l.IsListed keys m) (hfits : slotsOf keys l.order.toList < 2 ^ 32) :
    l.IsPlaced keys m := by
  have hword {n : Nat} (hn : n ≤ slotsOf keys l.order.toList) : (UInt32.ofNat n).toNat = n := by
    rw [UInt32.toNat_ofNat']
    exact Nat.mod_eq_of_lt (by omega)
  have hrun {i : Nat} {key : κ} (hkey : l.order.toList[i]? = some key) :
      slotsOf keys (l.order.toList.take i) + keyCount keys key < slotsOf keys l.order.toList := by
    have hi := (List.getElem?_eq_some_iff.1 hkey).1
    have := slotsOf_take_add_lt keys hkey hi
    rwa [List.take_length] at this
  refine ⟨h.nodup, h.mem_order, h.contains, ?_, fun key offset ho => ?_,
    fun key key' offset offset' hne ho ho' => ?_⟩
  · rw [h.next, hword (Nat.le_refl _)]
  · obtain ⟨i, hi, rfl⟩ := h.exists_getElem? ho
    have := hrun hi
    rw [h.next, hword (by omega), hword (Nat.le_refl _)]
    exact this
  · obtain ⟨i, hi, rfl⟩ := h.exists_getElem? ho
    obtain ⟨i', hi', rfl⟩ := h.exists_getElem? ho'
    have hrun₁ := hrun hi
    have hrun₂ := hrun hi'
    rw [hword (by omega), hword (by omega)]
    -- Of two runs the one listed first ends before the other starts.
    rcases Nat.lt_trichotomy i i' with hlt | rfl | hlt
    · exact Or.inl (slotsOf_take_add_lt keys hi hlt)
    · exact absurd (Option.some.inj (hi.symm.trans hi')) hne
    · exact Or.inr (slotsOf_take_add_lt keys hi' hlt)

/-- The runs of a column that fits need fewer than `2 ^ 32` slots, also those of its first rows. -/
theorem Layout.IsListed.slotsOf_lt {l : Layout κ} {keys : Array (Option κ)} {m : Nat}
    (h : l.IsListed keys m) (hfit : FitsWords keys) : slotsOf keys l.order.toList < 2 ^ 32 := by
  have hoccurs : ∀ key ∈ l.order.toList, some key ∈ keys := by
    intro key hkey
    obtain ⟨row, hrow⟩ := List.exists_mem_of_ne_nil _ ((h.mem_order key).1 hkey)
    exact Array.mem_of_getElem? (mem_occurrences.1 hrow).2
  have hbound := hfit _ h.nodup hoccurs
  have hsum := sum_keyCount_le keys h.nodup
  rw [slotsOf_eq]
  omega

/-- The runs of a layout that fits lie one behind the other. -/
theorem Layout.ofKeys_isPlaced {keys : Array (Option κ)} (hfit : FitsWords keys) :
    (Layout.ofKeys keys).IsPlaced keys keys.size := by
  have h := Layout.ofKeys_isListed keys
  exact h.isPlaced (h.slotsOf_lt hfit)

end AdaptiveJoin
