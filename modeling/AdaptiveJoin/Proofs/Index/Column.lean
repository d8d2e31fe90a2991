import Mathlib.Order.Basic
import AdaptiveJoin.Index.Basic
import AdaptiveJoin.Proofs.Comparison
import AdaptiveJoin.Proofs.Index.Lookup

/-!
# Indexes answer equalities

The index over a column of fewer than `2 ^ 31` rows finds the rows of the column that compare equal
with a cell of a column of the same kind (`ColumnIndex.lookupCell_eq`) or with a constant
(`ColumnIndex.lookupValue_eq`).  An integer column and a double constant are left out: there the key
of the constant is exact, whereas the comparison rounds the integers.
-/

namespace AdaptiveJoin

/-! ### Equal keys -/

theorem compareText_eq_iff {a b : String} : compareText a b = .eq ↔ a = b := by
  unfold compareText
  rw [Std.compare_eq_iff_eq]

theorem compareInt_eq_iff {a b : Int64} : compareInt a b = .eq ↔ a = b := by
  unfold compareInt
  rw [Std.compare_eq_iff_eq, Int64.toInt_inj]

namespace Double

/-- A pattern is determined by its sign and its magnitude. -/
theorem eq_of_sign_magnitude {a b : Double} (hsign : a.isNegative = b.isNegative)
    (hmag : a.magnitude = b.magnitude) : a = b := by
  have ha := a.bits.toNat_lt
  have hb := b.bits.toNat_lt
  rw [isNegative, isNegative, decide_eq_decide] at hsign
  rw [magnitude, magnitude] at hmag
  have hbits : a.bits.toNat = b.bits.toNat := by
    unfold signUnit at hsign hmag
    omega
  cases a
  cases b
  rw [Double.mk.injEq]
  exact UInt64.toNat_inj.1 hbits

/-- Two doubles have the same rank iff they are the same or both zero. -/
theorem rank_eq_iff {a b : Double} :
    a.rank = b.rank ↔ a = b ∨ (a.magnitude = 0 ∧ b.magnitude = 0) := by
  constructor
  · intro h
    rw [rank, rank] at h
    by_cases hzero : a.magnitude = 0
    · right
      rw [hzero] at h
      refine ⟨hzero, ?_⟩
      split at h <;> split at h <;> omega
    · left
      -- Ranks of different signs differ unless both are zero.
      have hboth : a.isNegative = b.isNegative ∧ a.magnitude = b.magnitude := by
        split at h <;> split at h
        · rename_i ha hb
          exact ⟨ha.trans hb.symm, by omega⟩
        · omega
        · omega
        · rename_i ha hb
          rw [Bool.not_eq_true] at ha hb
          exact ⟨ha.trans hb.symm, by omega⟩
      exact eq_of_sign_magnitude hboth.1 hboth.2
  · rintro (rfl | ⟨ha, hb⟩)
    · rfl
    · simp [rank, ha, hb]

end Double

/-- Doubles compare equal iff they have the same key. -/
theorem compare?_eq_some_eq_iff {a b : Double} :
    a.compare? b = some .eq ↔ ∃ key, DoubleKey.ofDouble? a = some key ∧
      DoubleKey.ofDouble? b = some key := by
  unfold Double.compare?
  by_cases ha : a.isNaN = true
  · simp [ha, DoubleKey.ofDouble?]
  by_cases hb : b.isNaN = true
  · simp [hb, DoubleKey.ofDouble?]
  simp only [ha, hb, Bool.false_or, Bool.false_eq_true, ↓reduceIte, Option.some.injEq,
    Std.compare_eq_iff_eq, Double.rank_eq_iff, DoubleKey.ofDouble?]
  -- The two zeros have one key, and all other numbers a key of their own.
  by_cases hza : a.magnitude = 0 <;> by_cases hzb : b.magnitude = 0
  · simp [hza, hzb]
  · have hne : a ≠ b := fun h => hzb (h ▸ hza)
    simp only [hza, hzb, hne, and_false, or_self, false_iff, ↓reduceIte, Option.some.injEq]
    rintro ⟨key, rfl, h⟩
    rw [DoubleKey.mk.injEq] at h
    rw [h] at hzb
    exact hzb rfl
  · have hne : a ≠ b := fun h => hza (h ▸ hzb)
    simp only [hza, hzb, hne, false_and, or_self, false_iff, ↓reduceIte, Option.some.injEq]
    rintro ⟨key, rfl, h⟩
    rw [DoubleKey.mk.injEq] at h
    rw [← h] at hza
    exact hza rfl
  · simp only [hza, hzb, false_and, or_false, ↓reduceIte, Option.some.injEq]
    constructor
    · rintro rfl
      exact ⟨_, rfl, rfl⟩
    · rintro ⟨key, rfl, h⟩
      rw [DoubleKey.mk.injEq] at h
      exact h.symm

namespace ColumnIndex

/-! ### The index of a column -/

/-- The index holds the occurrences of the keys of a column. -/
def Represents : ColumnIndex → Column → Prop
  | .int runs, c => ∃ xs, c.cells = .int xs ∧ runs.Represents xs
  | .double runs, c =>
    ∃ xs, c.cells = .double xs ∧ runs.Represents (xs.map (·.bind DoubleKey.ofDouble?))
  | .text runs, c => ∃ xs, c.cells = .text xs ∧ runs.Represents xs

theorem Represents.kind_eq {ix : ColumnIndex} {c : Column} (h : ix.Represents c) :
    ix.kind = c.kind := by
  cases ix <;> obtain ⟨xs, hc, -⟩ := h <;> simp [kind, Column.kind, hc]

/-- A column of fewer than `2 ^ 31` rows gets an index that represents it. -/
theorem ofColumn_eq_ok {c : Column} (hsize : c.size < 2 ^ 31) :
    ∃ ix, ofColumn c = .ok ix ∧ ix.Represents c := by
  have hlimit : c.size < rowLimit := by
    unfold rowLimit
    omega
  cases hc : c.cells with
  | int xs =>
    have hxs : c.size = xs.size := by simp [Column.size, hc]
    obtain ⟨runs, hok, hruns⟩ := Runs.ofKeys_eq_ok c.name xs (hxs ▸ hlimit)
      (fitsWords_of_size_lt (hxs ▸ hsize))
    refine ⟨.int runs, ?_, xs, hc, hruns⟩
    simp [ofColumn, Column.kind, Column.intKeys?, hc, hok, Except.map]
  | double xs =>
    -- A double without a key, which is not a number, counts as a null.
    have hxs : c.size = (xs.map (·.bind DoubleKey.ofDouble?)).size := by simp [Column.size, hc]
    obtain ⟨runs, hok, hruns⟩ := Runs.ofKeys_eq_ok c.name _ (hxs ▸ hlimit)
      (fitsWords_of_size_lt (hxs ▸ hsize))
    refine ⟨.double runs, ?_, xs, hc, hruns⟩
    simp [ofColumn, Column.kind, Column.doubleKeys?, hc, hok, Except.map]
  | text xs =>
    have hxs : c.size = xs.size := by simp [Column.size, hc]
    obtain ⟨runs, hok, hruns⟩ := Runs.ofKeys_eq_ok c.name xs (hxs ▸ hlimit)
      (fitsWords_of_size_lt (hxs ▸ hsize))
    refine ⟨.text runs, ?_, xs, hc, hruns⟩
    simp [ofColumn, Column.kind, Column.textKeys?, hc, hok, Except.map]

theorem represents_of_ofColumn {c : Column} {ix : ColumnIndex} (hsize : c.size < 2 ^ 31)
    (h : ofColumn c = .ok ix) : ix.Represents c := by
  obtain ⟨ix', hok, hix⟩ := ofColumn_eq_ok hsize
  rw [h, Except.ok.injEq] at hok
  exact hok ▸ hix

/-! ### Rows that compare equal -/

/-- The rows of a column that compare equal with a cell of another column. -/
def rowsOfCell (c source : Column) (row : Nat) : List Nat :=
  (List.range c.size).filter fun r => source.compareCells row c r == some .eq

/-- The rows of a column that compare equal with a constant. -/
def rowsOfValue (c : Column) (v : Value) : List Nat :=
  (List.range c.size).filter fun r => c.compareValue r v == some .eq

/-- The rows of a column that have the key of a constant. -/
def rowsOfKey (c : Column) (v : Value) : List Nat :=
  match c.cells with
  | .int xs => (v.intKey?.map fun key => occurrences xs key xs.size).getD []
  | .double xs =>
    let keys := xs.map (·.bind DoubleKey.ofDouble?)
    (v.doubleKey?.map fun key => occurrences keys key keys.size).getD []
  | .text xs => (v.textKey?.map fun key => occurrences xs key xs.size).getD []

theorem pairwise_rowsOfCell (c source : Column) (row : Nat) :
    (rowsOfCell c source row).Pairwise (· < ·) :=
  List.pairwise_lt_range.filter _

theorem pairwise_rowsOfValue (c : Column) (v : Value) : (rowsOfValue c v).Pairwise (· < ·) :=
  List.pairwise_lt_range.filter _

theorem join_eq_some_iff {α : Type} {x : Option (Option α)} {a : α} :
    x.join = some a ↔ x = some (some a) := by
  rcases x with _ | _ | x <;> simp

/-- The rows that pass a test which asks for a key, if there is one. -/
theorem filter_eq_occurrences {κ : Type} [BEq κ] [LawfulBEq κ] (keys : Array (Option κ))
    (key? : Option κ) (p : Nat → Bool)
    (h : ∀ row, p row = true ↔ ∃ key, key? = some key ∧ keys[row]? = some (some key)) :
    (List.range keys.size).filter p =
      (key?.map fun key => occurrences keys key keys.size).getD [] := by
  cases key? with
  | none => exact List.filter_eq_nil_iff.2 fun row _ hp => by simpa using (h row).1 hp
  | some key =>
    apply List.filter_congr
    intro row _
    rw [Bool.eq_iff_iff, h, beq_iff_eq]
    simp

section Cells

variable {c source : Column} {row : Nat}

theorem rowsOfCell_int {xs ys : Array (Option Int64)} (hc : c.cells = .int xs)
    (hs : source.cells = .int ys) :
    rowsOfCell c source row =
      (ys[row]?.join.map fun key => occurrences xs key xs.size).getD [] := by
  unfold rowsOfCell
  unfold Column.size
  rw [hc]
  apply filter_eq_occurrences
  intro r
  simp only [Column.compareCells, hc, hs, beq_iff_eq, Option.bind_eq_some_iff,
    Option.map_eq_some_iff, compareInt_eq_iff, join_eq_some_iff]
  exact ⟨fun ⟨x, hx, y, hy, heq⟩ => ⟨x, hx, heq ▸ hy⟩, fun ⟨x, hx, hy⟩ => ⟨x, hx, x, hy, rfl⟩⟩

theorem rowsOfCell_text {xs ys : Array (Option String)} (hc : c.cells = .text xs)
    (hs : source.cells = .text ys) :
    rowsOfCell c source row =
      (ys[row]?.join.map fun key => occurrences xs key xs.size).getD [] := by
  unfold rowsOfCell
  unfold Column.size
  rw [hc]
  apply filter_eq_occurrences
  intro r
  simp only [Column.compareCells, hc, hs, beq_iff_eq, Option.bind_eq_some_iff,
    Option.map_eq_some_iff, compareText_eq_iff, join_eq_some_iff]
  exact ⟨fun ⟨x, hx, y, hy, heq⟩ => ⟨x, hx, heq ▸ hy⟩, fun ⟨x, hx, hy⟩ => ⟨x, hx, x, hy, rfl⟩⟩

/-- A row of a double column has a key iff its cell has one. -/
theorem getElem?_doubleKeys {xs : Array (Option Double)} {key : DoubleKey} :
    (xs.map (·.bind DoubleKey.ofDouble?))[row]? = some (some key) ↔
      ∃ x, xs[row]?.join = some x ∧ DoubleKey.ofDouble? x = some key := by
  simp only [Array.getElem?_map, Option.map_eq_some_iff, Option.bind_eq_some_iff, join_eq_some_iff]
  constructor
  · rintro ⟨_, hx, x, rfl, hkey⟩
    exact ⟨x, hx, hkey⟩
  · rintro ⟨x, hx, hkey⟩
    exact ⟨some x, hx, x, rfl, hkey⟩

theorem rowsOfCell_double {xs ys : Array (Option Double)} (hc : c.cells = .double xs)
    (hs : source.cells = .double ys) :
    rowsOfCell c source row =
      ((ys[row]?.join.bind DoubleKey.ofDouble?).map fun key =>
        occurrences (xs.map (·.bind DoubleKey.ofDouble?)) key
          (xs.map (·.bind DoubleKey.ofDouble?)).size).getD [] := by
  rw [rowsOfCell, show c.size = (xs.map (·.bind DoubleKey.ofDouble?)).size by
    simp [Column.size, hc]]
  apply filter_eq_occurrences
  intro r
  simp only [getElem?_doubleKeys, Column.compareCells, hc, hs, beq_iff_eq,
    Option.bind_eq_some_iff, compare?_eq_some_eq_iff]
  -- Cells are equal exactly if they have the same key.
  constructor
  · rintro ⟨y, hy, x, hx, key, hykey, hxkey⟩
    exact ⟨key, ⟨y, hy, hykey⟩, x, hx, hxkey⟩
  · rintro ⟨key, ⟨y, hy, hykey⟩, x, hx, hxkey⟩
    exact ⟨y, hy, x, hx, key, hykey, hxkey⟩

/-- **A lookup of a cell finds the rows that compare equal with the cell.** -/
theorem lookupCell_eq {ix : ColumnIndex} (h : ix.Represents c) (hkind : source.kind = c.kind)
    (after : Int) (cursor : Cursor) :
    (ix.lookupCell source row after cursor).1 = firstAfter (rowsOfCell c source row) after := by
  cases ix with
  | int runs =>
    obtain ⟨xs, hc, hruns⟩ := h
    obtain ⟨ys, hs⟩ : ∃ ys, source.cells = .int ys := by
      cases hs : source.cells <;> simp_all [Column.kind]
    rw [rowsOfCell_int hc hs]
    simp only [lookupCell, hs]
    cases ys[row]?.join with
    | none => rfl
    | some key => exact Runs.nextRowCached?_eq hruns key after cursor
  | double runs =>
    obtain ⟨xs, hc, hruns⟩ := h
    obtain ⟨ys, hs⟩ : ∃ ys, source.cells = .double ys := by
      cases hs : source.cells <;> simp_all [Column.kind]
    rw [rowsOfCell_double hc hs]
    simp only [lookupCell, hs]
    -- A cell that is not a number finds nothing, like an empty one.
    cases ys[row]?.join.bind DoubleKey.ofDouble? with
    | none => rfl
    | some key => exact Runs.nextRowCached?_eq hruns key after cursor
  | text runs =>
    obtain ⟨xs, hc, hruns⟩ := h
    obtain ⟨ys, hs⟩ : ∃ ys, source.cells = .text ys := by
      cases hs : source.cells <;> simp_all [Column.kind]
    rw [rowsOfCell_text hc hs]
    simp only [lookupCell, hs]
    cases ys[row]?.join with
    | none => rfl
    | some key => exact Runs.nextRowCached?_eq hruns key after cursor

end Cells

section Constants

variable {c : Column} {v : Value}

theorem rowsOfValue_int {xs : Array (Option Int64)} (hc : c.cells = .int xs)
    (hexact : v.kind ≠ .double) :
    rowsOfValue c v = (v.intKey?.map fun key => occurrences xs key xs.size).getD [] := by
  unfold rowsOfValue
  unfold Column.size
  rw [hc]
  apply filter_eq_occurrences
  intro r
  cases v with
  | int i =>
    simp only [Column.compareValue, hc, beq_iff_eq, Option.map_eq_some_iff, compareInt_eq_iff,
      join_eq_some_iff, Value.intKey?, Option.some.injEq]
    exact ⟨fun ⟨x, hx, heq⟩ => ⟨x, heq.symm, hx⟩, fun ⟨x, heq, hx⟩ => ⟨x, hx, heq.symm⟩⟩
  | double d => exact absurd rfl hexact
  | text t => simp [Column.compareValue, hc, Value.intKey?]

theorem rowsOfValue_text {xs : Array (Option String)} (hc : c.cells = .text xs) :
    rowsOfValue c v = (v.textKey?.map fun key => occurrences xs key xs.size).getD [] := by
  unfold rowsOfValue
  unfold Column.size
  rw [hc]
  apply filter_eq_occurrences
  intro r
  cases v with
  | int i => simp [Column.compareValue, hc, Value.textKey?]
  | double d => simp [Column.compareValue, hc, Value.textKey?]
  | text t =>
    simp only [Column.compareValue, hc, beq_iff_eq, Option.map_eq_some_iff, compareText_eq_iff,
      join_eq_some_iff, Value.textKey?, Option.some.injEq]
    exact ⟨fun ⟨x, hx, heq⟩ => ⟨x, heq.symm, hx⟩, fun ⟨x, heq, hx⟩ => ⟨x, hx, heq.symm⟩⟩

theorem rowsOfValue_double {xs : Array (Option Double)} (hc : c.cells = .double xs) :
    rowsOfValue c v =
      (v.doubleKey?.map fun key => occurrences (xs.map (·.bind DoubleKey.ofDouble?)) key
        (xs.map (·.bind DoubleKey.ofDouble?)).size).getD [] := by
  rw [rowsOfValue, show c.size = (xs.map (·.bind DoubleKey.ofDouble?)).size by
    simp [Column.size, hc]]
  apply filter_eq_occurrences
  intro r
  -- An integer is looked up and compared as the double nearest to it.
  cases v with
  | text t => simp [Column.compareValue, hc, Value.doubleKey?]
  | int i =>
    simp only [getElem?_doubleKeys, Column.compareValue, hc, beq_iff_eq, Option.bind_eq_some_iff,
      compare?_eq_some_eq_iff, Value.doubleKey?]
    exact ⟨fun ⟨x, hx, key, hxkey, hkey⟩ => ⟨key, hkey, x, hx, hxkey⟩,
      fun ⟨key, hkey, x, hx, hxkey⟩ => ⟨x, hx, key, hxkey, hkey⟩⟩
  | double d =>
    simp only [getElem?_doubleKeys, Column.compareValue, hc, beq_iff_eq, Option.bind_eq_some_iff,
      compare?_eq_some_eq_iff, Value.doubleKey?]
    exact ⟨fun ⟨x, hx, key, hxkey, hkey⟩ => ⟨key, hkey, x, hx, hxkey⟩,
      fun ⟨key, hkey, x, hx, hxkey⟩ => ⟨x, hx, key, hxkey, hkey⟩⟩

/-- Looked up by its key, a constant has the rows that compare equal with it. -/
theorem rowsOfKey_eq (hexact : c.kind = .int → v.kind ≠ .double) :
    rowsOfKey c v = rowsOfValue c v := by
  unfold rowsOfKey
  cases hc : c.cells with
  | int xs => exact (rowsOfValue_int hc (hexact (by simp [Column.kind, hc]))).symm
  | double xs => exact (rowsOfValue_double hc).symm
  | text xs => exact (rowsOfValue_text hc).symm

section Represents

variable {ix : ColumnIndex} (h : ix.Represents c)

include h

theorem lookupValue_eq_rowsOfKey (after : Int) (cursor : Cursor) :
    (ix.lookupValue v after cursor).1 = firstAfter (rowsOfKey c v) after := by
  unfold rowsOfKey lookupValue
  -- Column and index are of one kind, which also tells whether the value has a key.
  cases ix with
  | int runs =>
    obtain ⟨xs, hc, hruns⟩ := h
    rw [hc]
    cases v.intKey? with
    | none => rfl
    | some key => exact Runs.nextRowCached?_eq hruns key after cursor
  | double runs =>
    obtain ⟨xs, hc, hruns⟩ := h
    rw [hc]
    cases v.doubleKey? with
    | none => rfl
    | some key => exact Runs.nextRowCached?_eq hruns key after cursor
  | text runs =>
    obtain ⟨xs, hc, hruns⟩ := h
    rw [hc]
    cases v.textKey? with
    | none => rfl
    | some key => exact Runs.nextRowCached?_eq hruns key after cursor

theorem lookupInPartition?_eq_rowsOfKey (after : Int) {worker workers : Nat}
    (hw : worker < workers) :
    ix.lookupInPartition? v after worker workers =
      firstAfter (Runs.dealt (rowsOfKey c v) worker workers) after := by
  unfold rowsOfKey lookupInPartition?
  cases ix with
  | int runs =>
    obtain ⟨xs, hc, hruns⟩ := h
    rw [hc]
    cases v.intKey? with
    | none => rfl
    | some key => exact Runs.nextRowInPartition?_eq hruns key after hw
  | double runs =>
    obtain ⟨xs, hc, hruns⟩ := h
    rw [hc]
    cases v.doubleKey? with
    | none => rfl
    | some key => exact Runs.nextRowInPartition?_eq hruns key after hw
  | text runs =>
    obtain ⟨xs, hc, hruns⟩ := h
    rw [hc]
    cases v.textKey? with
    | none => rfl
    | some key => exact Runs.nextRowInPartition?_eq hruns key after hw

/-- The count of a constant is the number of its rows. -/
theorem countValue_eq (v : Value) : ix.countValue v = (rowsOfKey c v).length := by
  unfold rowsOfKey countValue
  cases ix with
  | int runs =>
    obtain ⟨xs, hc, hruns⟩ := h
    rw [hc]
    cases v.intKey? with
    | none => rfl
    | some key => exact hruns.count_eq key
  | double runs =>
    obtain ⟨xs, hc, hruns⟩ := h
    rw [hc]
    cases v.doubleKey? with
    | none => rfl
    | some key => exact hruns.count_eq key
  | text runs =>
    obtain ⟨xs, hc, hruns⟩ := h
    rw [hc]
    cases v.textKey? with
    | none => rfl
    | some key => exact hruns.count_eq key

variable (hexact : c.kind = .int → v.kind ≠ .double)

include hexact

/-- **A lookup of a constant finds the rows that compare equal with it.** -/
theorem lookupValue_eq (after : Int) (cursor : Cursor) :
    (ix.lookupValue v after cursor).1 = firstAfter (rowsOfValue c v) after := by
  rw [lookupValue_eq_rowsOfKey h, rowsOfKey_eq hexact]

/-- **A lookup of one worker finds its share of the rows that compare equal with a constant.** -/
theorem lookupInPartition?_eq (after : Int) {worker workers : Nat} (hw : worker < workers) :
    ix.lookupInPartition? v after worker workers =
      firstAfter (Runs.dealt (rowsOfValue c v) worker workers) after := by
  rw [lookupInPartition?_eq_rowsOfKey h after hw, rowsOfKey_eq hexact]

end Represents

end Constants

end ColumnIndex

end AdaptiveJoin
