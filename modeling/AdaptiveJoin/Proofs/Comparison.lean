import AdaptiveJoin.Predicate
import AdaptiveJoin.Proofs.Double

/-!
# Comparisons in place

Cells are compared without building their values: with other cells by `Column.compareCells`, with
constants by `Column.compareValue`, and predicates evaluate by the one or the other.  All of them
come down to `Value.compareNullable?` of the values in the cells:

* `Column.compareCells_eq` and `Column.compareValue_eq`: for columns and constants of all kinds;
* `Value.map_swap_compare?`: sides that change places compare the other way;
* `Comparison.truth_eq_unknown_iff`: a comparison is undecided iff a side is null or the sides have
  no order, and `Value.HasOrder` says which values have one;
* `comparisons_agree`: the predicates over columns and constants say of every tuple what the
  comparison of the two values says.
-/

namespace AdaptiveJoin

/-! ### Values that have an order -/

theorem Double.isSome_compare? {a b : Double} :
    (a.compare? b).isSome ↔ a.isNaN = false ∧ b.isNaN = false := by
  unfold Double.compare?
  cases a.isNaN <;> cases b.isNaN <;> simp

namespace Value

/-- Whether a value is a number: integers are, and doubles unless they are NaN. -/
def IsNumber : Value → Prop
  | int _ => True
  | double d => d.isNaN = false
  | text _ => False

/-- Two values have an order if both are texts or both are numbers. -/
def HasOrder (x y : Value) : Prop :=
  (x.kind = .text ∧ y.kind = .text) ∨ (x.IsNumber ∧ y.IsNumber)

/-- Compares two values of which either may be null.  A null compares with nothing. -/
def compareNullable? (x y : Option Value) : Option Ordering :=
  x.bind fun x => y.bind fun y => x.compare? y

/-- **Values compare iff they have an order.** -/
theorem isSome_compare?_iff {x y : Value} : (x.compare? y).isSome ↔ x.HasOrder y := by
  cases x <;> cases y <;>
    simp [compare?, toDouble?, HasOrder, IsNumber, kind, Double.isSome_compare?,
      Double.isNaN_ofInt64]

theorem compareNullable?_eq_none_iff {x y : Option Value} :
    compareNullable? x y = none ↔ ¬∃ v w, x = some v ∧ y = some w ∧ v.HasOrder w := by
  unfold compareNullable?
  cases x with
  | none => simp
  | some v =>
    cases y with
    | none => simp
    | some w => simp [← isSome_compare?_iff]

end Value

/-! ### Sides that change places -/

@[simp]
theorem swap_compareInt {a b : Int64} : (compareInt a b).swap = compareInt b a := by
  unfold compareInt
  exact Std.OrientedCmp.eq_swap.symm

@[simp]
theorem swap_compareText {a b : String} : (compareText a b).swap = compareText b a := by
  unfold compareText
  exact Std.OrientedCmp.eq_swap.symm

@[simp]
theorem Double.map_swap_compare? {a b : Double} :
    (a.compare? b).map Ordering.swap = b.compare? a := by
  unfold Double.compare?
  rw [Bool.or_comm]
  split
  · rfl
  · exact congrArg some Std.OrientedCmp.eq_swap.symm

namespace Value

/-- **Values that change places compare the other way.** -/
@[simp]
theorem map_swap_compare? {x y : Value} : (x.compare? y).map Ordering.swap = y.compare? x := by
  cases x <;> cases y <;> simp [compare?, toDouble?]

theorem map_swap_compareNullable? {x y : Option Value} :
    (compareNullable? x y).map Ordering.swap = compareNullable? y x := by
  cases x <;> cases y <;> simp [compareNullable?]

end Value

/-! ### Truth -/

/-- An equality holds iff its sides compare equal. -/
theorem Comparison.truth_eq_holds_iff {o : Option Ordering} :
    Comparison.eq.truth o = .holds ↔ o = some .eq := by
  rcases o with _ | _ | _ | _ <;> decide

/-- **A comparison is undecided iff a side is null or the sides have no order.** -/
theorem Comparison.truth_eq_unknown_iff {op : Comparison} {x y : Option Value} :
    op.truth (Value.compareNullable? x y) = .unknown ↔
      ¬∃ v w, x = some v ∧ y = some w ∧ v.HasOrder w := by
  rw [← Value.compareNullable?_eq_none_iff]
  cases Value.compareNullable? x y with
  | none => simp [truth]
  | some o => cases h : op.admits o <;> simp [truth, h]

/-! ### Cells -/

namespace Column

variable {a b : Column} {row row' : Nat}

/-- There are no values beyond the last row. -/
theorem lt_size_of_value? {v : Value} (h : a.value? row = some v) : row < a.size := by
  by_contra hle
  unfold value? at h
  unfold size at hle
  cases hcells : a.cells <;> rw [hcells] at h hle <;>
    exact absurd h (by simp [Array.getElem?_eq_none (not_lt.1 hle)])

/-- **A cell compares with a constant as its value does.** -/
theorem compareValue_eq {v : Value} :
    a.compareValue row v = Value.compareNullable? (a.value? row) (some v) := by
  unfold compareValue value? Value.compareNullable?
  cases a.cells <;> rename_i xs <;> cases v <;> dsimp only <;> cases xs[row]?.join <;> rfl

/-- **Cells compare as their values do.** -/
theorem compareCells_eq :
    a.compareCells row b row' = Value.compareNullable? (a.value? row) (b.value? row') := by
  -- Either side decides on its own whether it is null, whatever the kinds are.
  unfold compareCells value? Value.compareNullable?
  cases a.cells <;> cases b.cells <;> rename_i xs ys <;> dsimp only <;>
    cases xs[row]?.join <;> cases ys[row']?.join <;> rfl

/-- Cells are equal in either order of comparison. -/
theorem compareCells_eq_comm :
    a.compareCells row b row' = some .eq ↔ b.compareCells row' a row = some .eq := by
  rw [compareCells_eq, compareCells_eq, ← Value.map_swap_compareNullable?]
  cases Value.compareNullable? (b.value? row') (a.value? row) with
  | none => rfl
  | some o => cases o <;> decide

end Column

/-! ### Predicates -/

section Predicates

variable {tables : Array Table}

/-- Columns that exist make a comparison of columns. -/
theorem compareColumns_of_resolve {left right : ColumnRef} {s t : Table} {a b : Column}
    (hleft : left.resolve tables = .ok (s, a)) (hright : right.resolve tables = .ok (t, b))
    (op : Comparison) :
    ∃ p, Predicate.compareColumns tables left op right = .ok p ∧ ∀ tuple : Tuple,
      p.eval tuple =
        op.truth (a.compareCells (tuple.row left.table) b (tuple.row right.table)) := by
  unfold Predicate.compareColumns
  rw [hleft, hright]
  exact ⟨_, rfl, fun _ => rfl⟩

/-- A column that exists makes a comparison with any constant. -/
theorem compareConstant_of_resolve {column : ColumnRef} {t : Table} {c : Column}
    (hcolumn : column.resolve tables = .ok (t, c)) (op : Comparison) (value : Value) :
    ∃ p, Predicate.compareConstant tables column op value = .ok p ∧ ∀ tuple : Tuple,
      p.eval tuple = op.truth (c.compareValue (tuple.row column.table) value) := by
  unfold Predicate.compareConstant
  rw [hcolumn]
  exact ⟨_, rfl, fun _ => rfl⟩

end Predicates

/-- **All comparisons agree.**  In place, cells and constants compare as values do; columns that
exist make predicates that say of every tuple what the comparison of the two values says, and that
is unknown exactly if a side is null or the sides have no order. -/
theorem comparisons_agree (op : Comparison) :
    (∀ (a b : Column) (row row' : Nat),
      a.compareCells row b row' = Value.compareNullable? (a.value? row) (b.value? row')) ∧
    (∀ (a : Column) (row : Nat) (v : Value),
      a.compareValue row v = Value.compareNullable? (a.value? row) (some v)) ∧
    (∀ (tables : Array Table) (left right : ColumnRef) (s t : Table) (a b : Column),
      left.resolve tables = .ok (s, a) → right.resolve tables = .ok (t, b) →
        ∃ p, Predicate.compareColumns tables left op right = .ok p ∧ ∀ tuple : Tuple,
          p.eval tuple = op.truth (Value.compareNullable? (a.value? (tuple.row left.table))
            (b.value? (tuple.row right.table)))) ∧
    (∀ (tables : Array Table) (column : ColumnRef) (t : Table) (c : Column) (v : Value),
      column.resolve tables = .ok (t, c) →
        ∃ p, Predicate.compareConstant tables column op v = .ok p ∧ ∀ tuple : Tuple,
          p.eval tuple = op.truth
            (Value.compareNullable? (c.value? (tuple.row column.table)) (some v))) ∧
    ∀ x y : Option Value, op.truth (Value.compareNullable? x y) = .unknown ↔
      ¬∃ v w, x = some v ∧ y = some w ∧ v.HasOrder w := by
  refine ⟨fun _ _ _ _ => Column.compareCells_eq, fun _ _ _ => Column.compareValue_eq, ?_, ?_,
    fun _ _ => Comparison.truth_eq_unknown_iff⟩
  · intro tables left right s t a b hleft hright
    -- A predicate compares the cells of the rows of its tuple.
    obtain ⟨p, hp, heval⟩ := compareColumns_of_resolve hleft hright op
    exact ⟨p, hp, fun tuple => by rw [heval, Column.compareCells_eq]⟩
  · intro tables column t c v hcolumn
    obtain ⟨p, hp, heval⟩ := compareConstant_of_resolve hcolumn op v
    exact ⟨p, hp, fun tuple => by rw [heval, Column.compareValue_eq]⟩

/-- Two numbers and a null, two doubles of which one is NaN, and a text. -/
def comparisonTables : Array Table :=
  #[⟨"n", #[⟨"x", .int #[some 7, some 8, none]⟩], by simp [commonRows]⟩,
    ⟨"d", #[⟨"y", .double #[some (.ofInt64 7), some ⟨0x7ff8000000000000⟩]⟩],
      by simp [commonRows]⟩,
    ⟨"s", #[⟨"z", .text #[some "7"]⟩], by simp [commonRows]⟩]

theorem comparisons_agree_sample :
    (∃ p, Predicate.compareColumns comparisonTables ⟨0, 0⟩ .le ⟨1, 0⟩ = .ok p ∧
      p.eval #[0, 0, 0] = .holds ∧ p.eval #[1, 0, 0] = .fails ∧ p.eval #[2, 0, 0] = .unknown ∧
      p.eval #[0, 1, 0] = .unknown) ∧
    (∃ p, Predicate.compareColumns comparisonTables ⟨0, 0⟩ .le ⟨2, 0⟩ = .ok p ∧
      p.eval #[0, 0, 0] = .unknown) ∧
    ∃ p, Predicate.compareConstant comparisonTables ⟨1, 0⟩ .le (.int 6) = .ok p ∧
      p.eval #[0, 0, 0] = .fails ∧ p.eval #[0, 1, 0] = .unknown := by
  obtain ⟨-, -, hcolumns, hconstant, -⟩ := comparisons_agree .le
  obtain ⟨p, hp, hpeval⟩ := hcolumns comparisonTables ⟨0, 0⟩ ⟨1, 0⟩ _ _ _ _ rfl rfl
  obtain ⟨q, hq, hqeval⟩ := hcolumns comparisonTables ⟨0, 0⟩ ⟨2, 0⟩ _ _ _ _ rfl rfl
  obtain ⟨r, hr, hreval⟩ := hconstant comparisonTables ⟨1, 0⟩ _ _ (.int 6) rfl
  refine ⟨⟨p, hp, ?_⟩, ⟨q, hq, ?_⟩, r, hr, ?_⟩
  · simp only [hpeval]
    decide +kernel
  · rw [hqeval]
    decide +kernel
  · simp only [hreval]
    decide +kernel

end AdaptiveJoin
