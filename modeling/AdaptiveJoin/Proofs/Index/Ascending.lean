import AdaptiveJoin.Index.Basic
import AdaptiveJoin.Proofs.Index.Layout

/-!
# Lookups only move forward

However many rows a column has, a lookup in its index answers a row of the column that lies after
the given one (`ColumnIndex.lookupCell_ascends`, `ColumnIndex.lookupValue_ascends`).  This needs
much less than finding the right rows: the index has been checked to hold rows of the column only
(`Runs.holdsRows_of_ofKeys`), and a bisection that ends within a run ends behind the given row, even
if the run did not ascend.
-/

namespace AdaptiveJoin

/-- Whatever the predicate is, bisection stays within its interval and ends at its end or at a place
at which the predicate does not hold. -/
theorem bisect_stops (p : Nat → Bool) (lo hi : Nat) :
    (lo ≤ hi → bisect p lo hi ≤ hi) ∧ (bisect p lo hi < hi → p (bisect p lo hi) = false) := by
  fun_induction bisect p lo hi with
  | case1 lo hi hlt mid hp ih => exact ⟨fun _ => ih.1 (by omega), ih.2⟩
  | case2 lo hi hlt mid hp ih =>
    have hle := ih.1 (by omega)
    refine ⟨fun _ => by omega, fun _ => ?_⟩
    rcases Nat.lt_or_eq_of_le hle with hbefore | heq
    · exact ih.2 hbefore
    · rw [heq]
      exact Bool.eq_false_iff.2 hp
  | case3 lo hi hge => exact ⟨id, fun hlt => absurd hlt hge⟩

namespace Runs

variable {κ : Type} [BEq κ] [Hashable κ]

/-- The runs of all keys hold rows of the column. -/
def HoldsRows (ix : Runs κ) : Prop :=
  ∀ (key : κ) (offset : UInt32), ix.offsets[key]? = some offset →
    ∀ i row, ix.runRow? offset i = some row → row < ix.cardinality

/-! ### Lookups -/

section Lookup

variable {ix : Runs κ} {offset : UInt32} {after : Int} {row : Nat}

theorem lt_runLength_of_runRow? {i : Nat} (h : ix.runRow? offset i = some row) :
    i < ix.runLength offset := by
  unfold runRow? at h
  split at h
  · assumption
  · exact absurd h (by simp)

/-- Bisection does not answer a row up to the given one. -/
theorem lt_of_runRow?_placeAfter {start : Nat}
    (h : ix.runRow? offset (ix.placeAfter offset after start) = some row) : after < row := by
  have hfalse := (bisect_stops _ _ _).2 (lt_runLength_of_runRow? h)
  rw [← placeAfter, h, Option.getD_some, decide_eq_false_iff_not] at hfalse
  omega

/-- Starting from a cursor does not answer such a row either. -/
theorem lt_of_runRow?_placeAfterCached {cursor : Cursor}
    (h : ix.runRow? offset (ix.placeAfterCached offset after cursor) = some row) : after < row := by
  unfold placeAfterCached at h
  dsimp only at h
  split at h
  · split at h
    · rename_i next hnext
      split at h
      · rename_i hafter
        rw [hnext, Option.some.injEq] at h
        exact h ▸ hafter
      · exact lt_of_runRow?_placeAfter h
    · exact lt_of_runRow?_placeAfter h
  · exact lt_of_runRow?_placeAfter h

theorem nextRowCached?_ascends (hrows : ix.HoldsRows) {key : κ} {cursor : Cursor}
    (h : (ix.nextRowCached? key after cursor).1 = some row) :
    after < row ∧ row < ix.cardinality := by
  unfold nextRowCached? at h
  split at h
  · exact absurd h (by simp)
  · rename_i offset hoffset
    dsimp only at h
    split at h
    · rename_i found hfound
      obtain rfl := Option.some.inj h
      exact ⟨lt_of_runRow?_placeAfterCached hfound, hrows key offset hoffset _ _ hfound⟩
    · exact absurd h (by simp)

end Lookup

/-! ### Checked indexes -/

/-- The rows of an index without fault are at the places that they know. -/
theorem place_of_fault? {ix : Runs κ} {column : String} (hfault : ix.fault? column = none)
    {key : κ} (hkey : key ∈ ix.order) {offset : UInt32} (ho : ix.offsets[key]? = some offset)
    {i row : Nat} (hrow : ix.runRow? offset i = some row) : ix.places[row]? = some (i + 1) := by
  have hmem : offset ∈ ix.order.toList.filterMap fun key => ix.offsets[key]? :=
    List.mem_filterMap.2 ⟨key, Array.mem_toList_iff.2 hkey, ho⟩
  unfold fault? at hfault
  dsimp only at hfault
  split at hfault
  · exact absurd hfault (by simp)
  · rename_i hruns
    have hplace := List.findSome?_eq_none_iff.1 (List.findSome?_eq_none_iff.1 hruns offset hmem) i
      (List.mem_range.2 (lt_runLength_of_runRow? hrow))
    unfold placeFault? at hplace
    rw [hrow] at hplace
    dsimp only at hplace
    split at hplace
    · exact absurd hplace (by simp)
    · split at hplace
      · exact absurd hplace (by simp)
      · rename_i hat
        exact not_not.1 hat

/-- The runs of an index without fault hold rows of the column. -/
theorem holdsRows_of_fault? {ix : Runs κ} {column : String} (hfault : ix.fault? column = none)
    (horder : ∀ key offset, ix.offsets[key]? = some offset → key ∈ ix.order) : ix.HoldsRows := by
  intro key offset ho i row hrow
  have hplace := place_of_fault? hfault (horder key offset ho) ho hrow
  exact (Array.getElem?_eq_some_iff.1 hplace).1

variable [LawfulBEq κ] [LawfulHashable κ]

/-- A layout lists every key that it has placed. -/
theorem mem_order_of_offsets {keys : Array (Option κ)} {key : κ} {offset : UInt32}
    (h : (Layout.ofKeys keys).offsets[key]? = some offset) : key ∈ (Layout.ofKeys keys).order := by
  revert key offset
  refine Array.foldl_induction (fun _ (l : Layout κ) =>
    ∀ {key : κ} {offset : UInt32}, l.offsets[key]? = some offset → key ∈ l.order) ?_ ?_
  · intro key offset h
    exact absurd h (by simp)
  · intro i l ih key offset h
    split at h
    · rename_i key' _
      unfold Layout.place at h ⊢
      split at h
      · rename_i hplaced
        rw [if_pos hplaced]
        exact ih h
      · rename_i hplaced
        rw [if_neg hplaced, Array.mem_push]
        rcases getElem?_insert_eq_some h with ⟨rfl, -⟩ | ⟨-, hold⟩
        · exact Or.inr rfl
        · exact Or.inl (ih hold)
    · exact ih h

omit [LawfulBEq κ] [LawfulHashable κ] in
/-- Storing rows leaves the layout alone. -/
theorem foldl_append_frame {offsets : Std.HashMap κ UInt32} {entries : Array (Option κ × Nat)}
    {start ix : Runs κ}
    (h : entries.foldl (fun (ix : Runs κ) entry =>
      match entry.1.bind (offsets[·]?) with
      | some offset => ix.append offset entry.2
      | none => ix) start = ix) :
    ix.order = start.order ∧ ix.offsets = start.offsets ∧ ix.places.size = start.places.size := by
  subst h
  refine Array.foldl_induction (fun _ (ix : Runs κ) => ix.order = start.order ∧
    ix.offsets = start.offsets ∧ ix.places.size = start.places.size) ⟨rfl, rfl, rfl⟩ ?_
  rintro i ix ⟨horder, hoffsets, hsize⟩
  split
  · exact ⟨horder, hoffsets, (Array.size_setIfInBounds ..).trans hsize⟩
  · exact ⟨horder, hoffsets, hsize⟩

/-- **An index over the keys of a column holds rows of the column.** -/
theorem holdsRows_of_ofKeys {column : String} {keys : Array (Option κ)} {ix : Runs κ}
    (h : ofKeys column keys = .ok ix) : ix.HoldsRows ∧ ix.cardinality = keys.size := by
  unfold ofKeys at h
  split at h
  · exact absurd h (by simp)
  · dsimp only at h
    split at h
    · exact absurd h (by simp)
    · rename_i hfault
      have hix := Except.ok.inj h
      obtain ⟨horder, hoffsets, hsize⟩ := foldl_append_frame hix
      rw [hix] at hfault
      refine ⟨holdsRows_of_fault? hfault fun key offset hkey => ?_, ?_⟩
      · rw [hoffsets] at hkey
        rw [horder]
        exact mem_order_of_offsets hkey
      · exact hsize.trans Array.size_replicate

omit [LawfulBEq κ] [LawfulHashable κ] in
/-- An index is made of the runs that it asks for. -/
theorem exists_of_ofKeys {α : Type} {f : Runs κ → α} {column : String} {keys : Array (Option κ)}
    {ix : α} (h : (ofKeys column keys).map f = .ok ix) :
    ∃ runs, f runs = ix ∧ ofKeys column keys = .ok runs := by
  cases hok : ofKeys column keys with
  | error e => simp [hok, Except.map] at h
  | ok runs =>
    simp only [hok, Except.map, Except.ok.injEq] at h
    exact ⟨runs, h, rfl⟩

end Runs

namespace ColumnIndex

/-- All runs of the index hold rows of the column. -/
def HoldsRows : ColumnIndex → Prop
  | .int runs => runs.HoldsRows
  | .double runs => runs.HoldsRows
  | .text runs => runs.HoldsRows

/-- **The index over a column holds rows of the column.** -/
theorem holdsRows_of_ofColumn {c : Column} {ix : ColumnIndex} (h : ofColumn c = .ok ix) :
    ix.HoldsRows ∧ ix.cardinality = c.size := by
  unfold ofColumn at h
  cases hc : c.cells with
  | int xs =>
    simp only [Column.kind, Column.intKeys?, hc, Option.getD_some] at h
    obtain ⟨runs, rfl, hok⟩ := Runs.exists_of_ofKeys h
    obtain ⟨hrows, hsize⟩ := Runs.holdsRows_of_ofKeys hok
    exact ⟨hrows, hsize.trans (by simp [Column.size, hc])⟩
  | double xs =>
    simp only [Column.kind, Column.doubleKeys?, hc, Option.getD_some] at h
    obtain ⟨runs, rfl, hok⟩ := Runs.exists_of_ofKeys h
    obtain ⟨hrows, hsize⟩ := Runs.holdsRows_of_ofKeys hok
    exact ⟨hrows, hsize.trans (by simp [Column.size, hc])⟩
  | text xs =>
    simp only [Column.kind, Column.textKeys?, hc, Option.getD_some] at h
    obtain ⟨runs, rfl, hok⟩ := Runs.exists_of_ofKeys h
    obtain ⟨hrows, hsize⟩ := Runs.holdsRows_of_ofKeys hok
    exact ⟨hrows, hsize.trans (by simp [Column.size, hc])⟩

variable {ix : ColumnIndex} {after : Int} {cursor : Cursor} {row : Nat}

/-- **A lookup of a cell answers a later row of the column.** -/
theorem lookupCell_ascends (hix : ix.HoldsRows) {source : Column} {sourceRow : Nat}
    (h : (ix.lookupCell source sourceRow after cursor).1 = some row) :
    after < row ∧ row < ix.cardinality := by
  unfold lookupCell at h
  split at h
  · split at h
    · exact Runs.nextRowCached?_ascends hix h
    · exact absurd h (by simp)
  · split at h
    · exact Runs.nextRowCached?_ascends hix h
    · exact absurd h (by simp)
  · split at h
    · exact Runs.nextRowCached?_ascends hix h
    · exact absurd h (by simp)
  · exact absurd h (by simp)

/-- **A lookup of a constant answers a later row of the column.** -/
theorem lookupValue_ascends (hix : ix.HoldsRows) {v : Value}
    (h : (ix.lookupValue v after cursor).1 = some row) :
    after < row ∧ row < ix.cardinality := by
  unfold lookupValue at h
  cases ix with
  | int runs =>
    cases hkey : v.intKey? with
    | none => simp [hkey] at h
    | some key =>
      simp only [hkey, Option.map_some, Option.getD_some] at h
      exact Runs.nextRowCached?_ascends hix h
  | double runs =>
    cases hkey : v.doubleKey? with
    | none => simp [hkey] at h
    | some key =>
      simp only [hkey, Option.map_some, Option.getD_some] at h
      exact Runs.nextRowCached?_ascends hix h
  | text runs =>
    cases hkey : v.textKey? with
    | none => simp [hkey] at h
    | some key =>
      simp only [hkey, Option.map_some, Option.getD_some] at h
      exact Runs.nextRowCached?_ascends hix h

end ColumnIndex

end AdaptiveJoin
