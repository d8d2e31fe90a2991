import AdaptiveJoin.Query.Basic

/-!
# The result of a join

The result of a query consists of the tuples, one row of every table, on which all predicates hold
(`Query.IsResult`).  `Query.nestedLoopJoin` lists them with one loop per table.  It knows nothing
of indexes, orders and progress, so it is what any other way of joining has to agree with.

* `mem_nestedLoopJoin`: the nested loops find the result.
* `nodup_nestedLoopJoin`: they find every tuple once.
-/

namespace AdaptiveJoin

/-! ### Loops -/

/-- One loop per bound: the lists of numbers below the bounds, the first number being that of the
outermost loop. -/
def rowsBelow : List Nat → List (List Nat)
  | [] => [[]]
  | bound :: bounds => (List.range bound).flatMap fun row => (rowsBelow bounds).map (row :: ·)

theorem mem_rowsBelow {bounds rows : List Nat} :
    rows ∈ rowsBelow bounds ↔
      rows.length = bounds.length ∧ ∀ i < bounds.length, rows[i]?.getD 0 < bounds[i]?.getD 0 := by
  induction bounds generalizing rows with
  | nil => simp [rowsBelow]
  | cons bound bounds ih =>
    cases rows with
    | nil => simp [rowsBelow]
    | cons row rows =>
      have head : (row :: rows) ∈ rowsBelow (bound :: bounds) ↔
          row < bound ∧ rows ∈ rowsBelow bounds := by simp [rowsBelow]
      rw [head, ih]
      constructor
      · rintro ⟨hrow, hlen, h⟩
        refine ⟨by simp [hlen], fun i hi => ?_⟩
        cases i with
        | zero => simpa using hrow
        | succ i => simpa using h i (by simpa using hi)
      · rintro ⟨hlen, h⟩
        refine ⟨by simpa using h 0 (by simp), by simpa using hlen, fun i hi => ?_⟩
        simpa using h (i + 1) (by simpa using hi)

theorem nodup_rowsBelow (bounds : List Nat) : (rowsBelow bounds).Nodup := by
  induction bounds with
  | nil => simp [rowsBelow]
  | cons bound bounds ih =>
    refine List.pairwise_flatMap.2 ⟨fun row _ => ?_, ?_⟩
    · exact List.pairwise_map.2 (ih.imp fun h eq => h (List.cons.inj eq).2)
    · refine List.nodup_range.imp fun hne x hx y hy eq => hne ?_
      obtain ⟨xs, _, rfl⟩ := List.mem_map.1 hx
      obtain ⟨ys, _, rfl⟩ := List.mem_map.1 hy
      exact (List.cons.inj eq).1

/-! ### Results -/

namespace Query

/-- A tuple of a query: a row of every table. -/
def HasTuple (q : Query) (tuple : Tuple) : Prop :=
  tuple.size = q.nrTables ∧ ∀ table < q.nrTables, tuple.row table < q.cardinality table

/-- A tuple on which all predicates hold. -/
def IsResult (q : Query) (tuple : Tuple) : Prop :=
  q.HasTuple tuple ∧ ∀ p ∈ q.predicates, p.eval tuple = .holds

/-- The result by one loop per table, the first table being the outermost loop. -/
def nestedLoopJoin (q : Query) : List Tuple :=
  ((rowsBelow (q.tables.toList.map Table.cardinality)).map List.toArray).filter fun tuple =>
    q.predicates.all fun p => p.eval tuple == .holds

theorem mem_nestedLoopJoin {q : Query} {tuple : Tuple} :
    tuple ∈ q.nestedLoopJoin ↔ q.IsResult tuple := by
  have rows : tuple ∈ (rowsBelow (q.tables.toList.map Table.cardinality)).map List.toArray ↔
      q.HasTuple tuple := by
    rw [List.mem_map]
    constructor
    · rintro ⟨rows, h, rfl⟩
      obtain ⟨hlen, h⟩ := mem_rowsBelow.1 h
      refine ⟨by simpa [nrTables] using hlen, fun table ht => ?_⟩
      simpa [Tuple.row, cardinality] using h table (by simpa [nrTables] using ht)
    · rintro ⟨hlen, h⟩
      refine ⟨tuple.toList, mem_rowsBelow.2 ⟨by simpa [nrTables] using hlen, fun i hi => ?_⟩, rfl⟩
      simpa [Tuple.row, cardinality] using h i (by simpa [nrTables] using hi)
  rw [nestedLoopJoin, List.mem_filter, rows, IsResult, Array.all_eq_true']
  simp

theorem nodup_nestedLoopJoin (q : Query) : q.nestedLoopJoin.Nodup :=
  (List.pairwise_map.2 ((nodup_rowsBelow _).imp fun h eq => h (List.toArray_inj eq))).filter _

end Query

end AdaptiveJoin
