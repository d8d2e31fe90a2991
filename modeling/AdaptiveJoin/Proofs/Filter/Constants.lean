import AdaptiveJoin.Proofs.Double
import AdaptiveJoin.Proofs.Filter.Slices
import AdaptiveJoin.Proofs.Index.Checked
import AdaptiveJoin.Proofs.Index.Column
import AdaptiveJoin.Proofs.Query.Built

/-!
# Indexes and predicates agree on constants

An equality of a column and a constant is decided row by row, or by an index over the column; what
an index supplies is not evaluated again.  Both ways find the same rows (`constantRows_eq`): for
columns of any size, for nulls, zeros of either sign and what is not a number, and for constants of
another kind than the column.

One case is left out, an integer column that is equated with a double when both come to `2 ^ 53`.
The key of the double is exact, whereas a comparison rounds the integers of the column, so that the
evaluation finds rows with other integers than that of the constant (`constantRows_rounded`).
-/

namespace AdaptiveJoin

/-! ### Indexes of columns -/

namespace ColumnIndex

variable {c : Column} {v : Value} {ix : ColumnIndex}

theorem Represents.exists_int (h : ix.Represents c) (hkind : c.kind = .int) :
    ∃ runs, ix = .int runs := by
  rw [← h.kind_eq] at hkind
  cases ix with
  | int runs => exact ⟨runs, rfl⟩
  | double runs => exact absurd hkind (by simp [kind])
  | text runs => exact absurd hkind (by simp [kind])

theorem pairwise_rowsOfKey (c : Column) (v : Value) : (rowsOfKey c v).Pairwise (· < ·) := by
  unfold rowsOfKey
  cases c.cells with
  | int xs =>
    cases v.intKey? with
    | none => exact List.Pairwise.nil
    | some key => exact pairwise_occurrences ..
  | double xs =>
    cases v.doubleKey? with
    | none => exact List.Pairwise.nil
    | some key => exact pairwise_occurrences ..
  | text xs =>
    cases v.textKey? with
    | none => exact List.Pairwise.nil
    | some key => exact pairwise_occurrences ..

/-- Any constant is looked up by its key. -/
theorem Represents.supplies (h : ix.Represents c) (v : Value) :
    FilterIndex.Supplies ⟨ix, v⟩ (rowsOfKey c v) where
  ascending := pairwise_rowsOfKey c v
  lookup after cursor := lookupValue_eq_rowsOfKey h after cursor
  share after _ _ hbatch := lookupInPartition?_eq_rowsOfKey h after hbatch

end ColumnIndex

/-! ### Integers and doubles -/

/-- The integers of a column are told apart from a double constant, unless both come to `2 ^ 53` in
magnitude. -/
def Column.TellsApart (c : Column) (v : Value) : Prop :=
  ∀ xs d i, c.cells = .int xs → v = .double d → d.toInt? = some i →
    i.natAbs < 2 ^ 53 ∨ ∀ x, some x ∈ xs → x.toInt.natAbs < 2 ^ 53

/-- The integer of a constant is its key. -/
theorem Value.intKey?_double_eq_some {d : Double} {key : Int64}
    (h : (Value.double d).intKey? = some key) : d.toInt? = some key.toInt := by
  simp only [intKey?] at h
  split at h
  · rename_i i hi
    split at h
    · rename_i hlt
      obtain rfl := Option.some.inj h
      unfold Double.signUnit at hlt
      rw [Int64.toInt_ofInt_of_le (by omega) (by omega), hi]
    · exact absurd h (by simp)
  · exact absurd h (by simp)

namespace ColumnIndex

variable {c : Column} {v : Value} {ix : ColumnIndex}

/-- A double constant that has a key in an integer column compares equal with that key only. -/
theorem rowsOfValue_int_double {xs : Array (Option Int64)} (hc : c.cells = .int xs) {d : Double}
    {key : Int64} (hkey : (Value.double d).intKey? = some key) (hapart : c.TellsApart (.double d)) :
    rowsOfValue c (.double d) = occurrences xs key xs.size := by
  have hint := Value.intKey?_double_eq_some hkey
  have hrow (r : Nat) : (c.compareValue r (.double d) == some .eq) = true ↔
      ∃ k, some key = some k ∧ xs[r]? = some (some k) := by
    -- The key compares as equal, and no other value of the column does.
    have hcompare (x : Int64) (hx : xs[r]? = some (some x)) :
        (Double.ofInt64 x).compare? d = some .eq ↔ x = key := by
      rw [Double.compare?_ofInt64_eq_iff hint, Int64.toInt_inj]
      exact (hapart xs d _ hc rfl hint).symm.imp_left fun hall =>
        hall x (Array.mem_of_getElem? hx)
    simp only [Column.compareValue, hc, beq_iff_eq, Option.bind_eq_some_iff, join_eq_some_iff]
    constructor
    · rintro ⟨x, hx, heq⟩
      exact ⟨key, rfl, (hcompare x hx).1 heq ▸ hx⟩
    · rintro ⟨k, hk, hx⟩
      obtain rfl := Option.some.inj hk
      exact ⟨key, hx, (hcompare key hx).2 rfl⟩
  unfold rowsOfValue
  unfold Column.size
  rw [hc]
  exact filter_eq_occurrences xs (some key) _ hrow

/-- **Looked up by its key, an accepted constant has the rows that compare equal with it.** -/
theorem rowsOfKey_eq_of_accepts (h : ix.Represents c) (haccepts : ix.accepts v = true)
    (hapart : c.TellsApart v) : rowsOfKey c v = rowsOfValue c v := by
  by_cases hexact : c.kind = .int → v.kind ≠ .double
  · exact rowsOfKey_eq hexact
  · obtain ⟨hkind, hdouble⟩ := Classical.not_imp.1 hexact
    cases v with
    | int i => exact absurd (by simp [Value.kind]) hdouble
    | text t => exact absurd (by simp [Value.kind]) hdouble
    | double d =>
      obtain ⟨runs, rfl⟩ := h.exists_int hkind
      obtain ⟨xs, hc, -⟩ := h
      obtain ⟨key, hkey⟩ := Option.isSome_iff_exists.1 haccepts
      rw [rowsOfValue_int_double hc hkey hapart, rowsOfKey, hc, hkey]
      rfl

end ColumnIndex

/-! ### Rows of a constant -/

namespace TableFilter

open ColumnIndex

/-- Scanning an index from the start supplies all of its rows. -/
theorem supply_all {access : FilterIndex} {rows : List Nat} (h : access.Supplies rows)
    {rounds : Nat} (hrounds : rows.length < rounds) (cursor : Cursor) :
    (supply access (-1) cursor rounds).1 = rows ∧
      (supply access (-1) cursor rounds).2.1 = none := by
  obtain ⟨hrows, hlast⟩ := supply_eq h rounds (-1) cursor
  rw [rowsAfter_start] at hrows hlast
  rw [hrows, hlast, List.take_of_length_le hrounds.le, if_pos hrounds]
  exact ⟨rfl, rfl⟩

/-- **Answered by an index or evaluated row by row, an equality with a constant has the same rows**:
those that compare equal with the constant are the rows on which the predicate holds, those that a
scan of the index finds, one after another or dealt out to workers, and those that it counts. -/
theorem constantRows_eq {q : Query} {column : ColumnRef} {c : Column}
    (hc : q.column? column = some c) {ix : ColumnIndex} (hix : ofColumn c = .ok ix) {v : Value}
    (haccepts : ix.accepts v = true) (hapart : c.TellsApart v) {p : Predicate}
    (hp : Predicate.compareConstant q.tables column .eq v = .ok p) :
    (∀ tuple : Tuple, tuple.row column.table < c.size →
      (p.eval tuple = .holds ↔ tuple.row column.table ∈ rowsOfValue c v)) ∧
    (∀ cursor rounds, c.size < rounds →
      (supply ⟨ix, v⟩ (-1) cursor rounds).1 = rowsOfValue c v ∧
        (supply ⟨ix, v⟩ (-1) cursor rounds).2.1 = none) ∧
    FilterIndex.Supplies ⟨ix, v⟩ (rowsOfValue c v) ∧
    ix.countValue v = (rowsOfValue c v).length := by
  have hrep := represents_of_checked hix
  have hrows := rowsOfKey_eq_of_accepts hrep haccepts hapart
  have hsupplies := hrep.supplies v
  rw [hrows] at hsupplies
  refine ⟨fun tuple hrow => ?_, fun cursor rounds hrounds => ?_, hsupplies,
    hrows ▸ countValue_eq hrep v⟩
  · -- The predicate compares the cell of the row with the constant.
    obtain ⟨label, c', hc', rfl⟩ := Query.compareConstant_eq_ok hp
    obtain rfl := Option.some.inj (hc.symm.trans hc')
    rw [rowsOfValue, List.mem_filter, List.mem_range, beq_iff_eq, and_iff_right hrow]
    show Comparison.eq.truth _ = .holds ↔ _
    rcases c.compareValue (tuple.row column.table) v with _ | _ | _ | _ <;> decide
  · -- There are no more rows with the constant than rows.
    refine supply_all hsupplies (Nat.lt_of_le_of_lt ?_ hrounds) cursor
    unfold rowsOfValue
    exact (List.length_filter_le _ _).trans_eq List.length_range

/-! ### Small and large constants -/

/-- The index of an integer column accepts doubles that have an integer key. -/
theorem exists_accepts_double {c : Column} (hkind : c.kind = .int) (hsize : c.size < 2 ^ 31)
    {v : Value} (hkey : v.intKey?.isSome = true) :
    ∃ ix, ofColumn c = .ok ix ∧ ix.accepts v = true ∧ ix.Represents c := by
  obtain ⟨ix, hix, hrep⟩ := ofColumn_eq_ok hsize
  obtain ⟨runs, rfl⟩ := hrep.exists_int hkind
  exact ⟨.int runs, hix, hkey, hrep⟩

/-- Ones, a two and a null. -/
def unitsColumn : Column := ⟨"x", .int #[some 1, none, some 2, some 1]⟩

def unitsQuery : Query := .ofTables #[⟨"t", #[unitsColumn], by simp [commonRows]⟩]

theorem constantRows_eq_one : ∃ ix, ofColumn unitsColumn = .ok ix ∧
    (supply ⟨ix, .double ⟨0x3ff0000000000000⟩⟩ (-1) .fresh 5).1 = [0, 3] ∧
    ix.countValue (.double ⟨0x3ff0000000000000⟩) = 2 := by
  obtain ⟨ix, hix, haccepts, -⟩ := exists_accepts_double (c := unitsColumn)
    (v := .double ⟨0x3ff0000000000000⟩) rfl (by decide) (by decide)
  have hapart : unitsColumn.TellsApart (.double ⟨0x3ff0000000000000⟩) := by
    rintro xs d i - hd hi
    obtain rfl := Value.double.inj hd
    have hone : (⟨0x3ff0000000000000⟩ : Double).toInt? = some 1 := by decide
    obtain rfl := Option.some.inj (hone.symm.trans hi)
    exact Or.inl (by decide)
  have hcolumn : unitsQuery.column? ⟨0, 0⟩ = some unitsColumn := rfl
  obtain ⟨-, hscan, -, hcount⟩ := constantRows_eq hcolumn hix haccepts hapart rfl
  have hrows : rowsOfValue unitsColumn (.double ⟨0x3ff0000000000000⟩) = [0, 3] := by decide
  rw [hrows] at hscan hcount
  exact ⟨ix, hix, (hscan .fresh 5 (by decide)).1, hcount⟩

/-- The first two integers that have the same nearest double. -/
def roundedColumn : Column := ⟨"x", .int #[some 9007199254740992, some 9007199254740993]⟩

/-- The double of the first cell is found there by its key, but the second one compares equal with
it as well. -/
theorem constantRows_rounded : ∃ ix, ofColumn roundedColumn = .ok ix ∧
    ix.accepts (.double ⟨0x4340000000000000⟩) = true ∧
    (supply ⟨ix, .double ⟨0x4340000000000000⟩⟩ (-1) .fresh 3).1 = [0] ∧
    ix.countValue (.double ⟨0x4340000000000000⟩) = 1 ∧
    rowsOfValue roundedColumn (.double ⟨0x4340000000000000⟩) = [0, 1] := by
  obtain ⟨ix, hix, haccepts, hrep⟩ := exists_accepts_double (c := roundedColumn)
    (v := .double ⟨0x4340000000000000⟩) rfl (by decide) (by decide)
  have hkey : rowsOfKey roundedColumn (.double ⟨0x4340000000000000⟩) = [0] := by decide
  have hsupplies := hrep.supplies (.double ⟨0x4340000000000000⟩)
  have hcount := countValue_eq hrep (.double ⟨0x4340000000000000⟩)
  rw [hkey] at hsupplies hcount
  exact ⟨ix, hix, haccepts, (supply_all hsupplies (by decide) .fresh).1, hcount, by decide⟩

end TableFilter

end AdaptiveJoin
