import AdaptiveJoin.Proofs.Filter.Slices
import AdaptiveJoin.Proofs.Sign

/-!
# Calls of a filter

`TableFilter.IsExact` is the invariant of a filter: below its cursor it has kept the rows on which
all predicates hold.

* `TableFilter.execute_cases`: a call changes nothing or decides a slice.  It changes nothing if the
  table is finished, if an index is missing, or if there is no room for the batches.
* `TableFilter.LeadsTo.execute`: a call of any choice keeps the invariant.
* `TableFilter.zero_le_execute`: no reward is below 0.
-/

namespace AdaptiveJoin

/-- The predicate whose index a choice asks for. -/
def FilterChoice.access? (c : FilterChoice) : Option Nat :=
  if c.conjunctive then none else c.indexed

namespace TableFilter

variable {f : TableFilter}

/-- The filter after a slice. -/
def decided (f : TableFilter) (slice : Slice) (next : Nat) (lookup : Cursor) : TableFilter :=
  { f with
    cursor := next
    rows := f.rows ++ slice.kept.toArray
    lookup := lookup }

/-- The invariant of a filter: the kept rows are those below the cursor on which all predicates
hold. -/
structure IsExact (f : TableFilter) : Prop where
  cardinality_lt : f.cardinality < 2 ^ 32
  hasExactIndexes : f.HasExactIndexes
  cursor_le : f.cursor ≤ f.cardinality
  rows_eq : f.rows.toList = (List.range f.cursor).filter f.accepts

/-- A slice of some rows in some batches does not overflow. -/
structure Fits (f : TableFilter) (budget batches : UInt64) : Prop where
  budget : budget.toNat + f.cardinality < 2 ^ 64
  batches : f.cardinality + batches.toNat ≤ 2 ^ 32

/-- The slices that a call can come to, and the cursors after them, one for every way of deciding
it. -/
inductive IsSlice (f : TableFilter) (budget batches : UInt64) (choice : FilterChoice) :
    Slice → Nat → Prop
  | scan : IsSlice f budget batches choice (f.scan (f.evaluationOrder choice none) budget batches).1
      (f.scan (f.evaluationOrder choice none) budget batches).2
  | indexScan {p : Nat} {access : FilterIndex} (hindex : f.indexes[p]? = some (some access)) :
      IsSlice f budget batches choice
        (f.indexScan access (f.evaluationOrder choice (some p)) budget.toNat).1
        (f.indexScan access (f.evaluationOrder choice (some p)) budget.toNat).2.1
  | batchedIndexScan {p : Nat} {access : FilterIndex} {slice : Slice} {next : Nat}
      (hindex : f.indexes[p]? = some (some access))
      (hslice : f.batchedIndexScan access (f.evaluationOrder choice (some p)) budget batches =
        some (slice, next)) : IsSlice f budget batches choice slice next

/-- A call asks for an index that the filter does not have. -/
def Misses (f : TableFilter) (choice : FilterChoice) : Prop :=
  ∃ p, choice.access? = some p ∧ f.indexes[p]?.join = none

/-- A call asks for an index in batches for which there is no room. -/
def Overflows (f : TableFilter) (budget : UInt64) (choice : FilterChoice) : Prop :=
  (∃ p, choice.access? = some p ∧ f.indexes[p]?.join ≠ none) ∧ 1 < choice.batches ∧
    hasRoomForShares (max budget 1) choice.batches = false

/-- The number of batches of a slice that is split. -/
theorem max_one_of_one_lt {word : UInt64} (h : 1 < max word 1) : 1 < word ∧ max word 1 = word := by
  rw [UInt64.lt_iff_toNat_lt, toNat_max_word, UInt64.toNat_one] at h
  rw [UInt64.lt_iff_toNat_lt, ← UInt64.toNat_inj, toNat_max_word, UInt64.toNat_one]
  omega

/-- **A call finds the table finished, misses an index, has no room, or comes to a slice.** -/
theorem execute_slices (f : TableFilter) (budget : UInt64) (choice : FilterChoice) :
    (f.isFinished = true ∧ f.execute budget choice = (.decided 1, f)) ∨
    (f.cursor < f.cardinality ∧ f.Misses choice ∧ f.execute budget choice = (.refused, f)) ∨
    (f.cursor < f.cardinality ∧ f.Overflows budget choice ∧
      f.execute budget choice = (.overflow, f)) ∨
    (f.cursor < f.cardinality ∧ ¬f.Misses choice ∧ ¬f.Overflows budget choice ∧
      ∃ slice next lookup, f.IsSlice (max budget 1) (max choice.batches 1) choice slice next ∧
        f.execute budget choice =
          (.decided (sliceReward f.cursor next slice.evaluations (max choice.batches 1)),
            f.decided slice next lookup)) := by
  unfold execute
  by_cases hfinished : f.isFinished = true
  · rw [if_pos hfinished]
    exact Or.inl ⟨hfinished, rfl⟩
  rw [if_neg hfinished]
  have hunfinished : f.cursor < f.cardinality := by
    simpa [isFinished] using hfinished
  apply Or.inr
  cases haccess : choice.access? with
  | none =>
    have hmisses : ¬f.Misses choice := by
      rintro ⟨p, hp, -⟩
      exact absurd (haccess.symm.trans hp) nofun
    have hoverflows : ¬f.Overflows budget choice := by
      rintro ⟨⟨p, hp, -⟩, -⟩
      exact absurd (haccess.symm.trans hp) nofun
    unfold FilterChoice.access? at haccess
    simp only [haccess]
    exact Or.inr (Or.inr ⟨hunfinished, hmisses, hoverflows, _, _, _, .scan, rfl⟩)
  | some p =>
    have hsame {p' : Nat} (hp : choice.access? = some p') : p' = p :=
      Option.some.inj (hp.symm.trans haccess)
    have hchoice := haccess
    unfold FilterChoice.access? at haccess
    simp only [haccess]
    cases hindex : f.indexes[p]?.join with
    | none => exact Or.inl ⟨hunfinished, ⟨p, hchoice, hindex⟩, rfl⟩
    | some access =>
      apply Or.inr
      have hmisses : ¬f.Misses choice := by
        rintro ⟨p', hp, hnone⟩
        rw [hsame hp, hindex] at hnone
        exact absurd hnone nofun
      have hpresent : ∃ p, choice.access? = some p ∧ f.indexes[p]?.join ≠ none :=
        ⟨p, hchoice, by rw [hindex]; exact nofun⟩
      have hindex : f.indexes[p]? = some (some access) := Option.join_eq_some_iff.1 hindex
      by_cases hsplit : 1 < max choice.batches 1
      · obtain ⟨hbatches, hmax⟩ := max_one_of_one_lt hsplit
        simp only [if_pos hsplit]
        -- In batches, it depends on the room for what the batches are supplied with.
        cases hslice : f.batchedIndexScan access (f.evaluationOrder choice (some p)) (max budget 1)
          (max choice.batches 1) with
        | none =>
          refine Or.inl ⟨hunfinished, ⟨hpresent, hbatches, ?_⟩, rfl⟩
          rw [hmax, batchedIndexScan] at hslice
          split at hslice
          · exact absurd hslice nofun
          · rename_i hroom
            exact Bool.eq_false_of_not_eq_true hroom
        | some result =>
          obtain ⟨slice, next⟩ := result
          refine Or.inr ⟨hunfinished, hmisses, ?_, slice, next, _,
            .batchedIndexScan hindex hslice, rfl⟩
          rintro ⟨-, -, hroom⟩
          rw [hmax, batchedIndexScan, hroom] at hslice
          exact absurd hslice nofun
      · simp only [if_neg hsplit]
        refine Or.inr ⟨hunfinished, hmisses, ?_, _, _, _, .indexScan hindex, rfl⟩
        rintro ⟨-, hbatches, -⟩
        refine hsplit ?_
        rw [UInt64.lt_iff_toNat_lt] at hbatches ⊢
        rw [toNat_max_word]
        exact hbatches.trans_le (Nat.le_max_left _ _)

theorem toNat_max_one (a : UInt64) : (max a 1).toNat = max a.toNat 1 := by
  rw [toNat_max_word, UInt64.toNat_one]

/-- **A call finds the table finished, misses an index, has no room, or decides a slice.** -/
theorem execute_cases (hf : f.IsExact) {budget : UInt64} {choice : FilterChoice}
    (hfits : f.Fits budget choice.batches) :
    (f.cursor = f.cardinality ∧ f.execute budget choice = (.decided 1, f)) ∨
    (f.cursor < f.cardinality ∧ f.Misses choice ∧ f.execute budget choice = (.refused, f)) ∨
    (f.cursor < f.cardinality ∧ f.Overflows budget choice ∧
      f.execute budget choice = (.overflow, f)) ∨
    (f.cursor < f.cardinality ∧ ¬f.Misses choice ∧ ¬f.Overflows budget choice ∧
      ∃ slice next lookup, f.Decides slice next ∧
        f.execute budget choice =
          (.decided (sliceReward f.cursor next slice.evaluations (max choice.batches 1)),
            f.decided slice next lookup)) := by
  have hbudget := toNat_max_one budget
  have hbatches := toNat_max_one choice.batches
  have hfits₁ := hfits.budget
  have hfits₂ := hfits.batches
  have hlimit := hf.cardinality_lt
  rcases f.execute_slices budget choice with ⟨hfinished, heq⟩ | hmissing | hoverflow |
    ⟨hunfinished, hmisses, hoverflows, slice, next, lookup, hslice, heq⟩
  · have hge := of_decide_eq_true hfinished
    exact Or.inl ⟨Nat.le_antisymm hf.cursor_le hge, heq⟩
  · exact Or.inr (Or.inl hmissing)
  · exact Or.inr (Or.inr (Or.inl hoverflow))
  · refine Or.inr (Or.inr (Or.inr
      ⟨hunfinished, hmisses, hoverflows, slice, next, lookup, ?_, heq⟩))
    -- Whatever way the slice is decided, the words of the call fit.
    cases hslice with
    | scan =>
      exact decides_scan hunfinished hlimit choice (by omega) (by omega) (by omega)
    | indexScan hindex =>
      exact decides_indexScan hunfinished hf.hasExactIndexes choice hindex (by omega)
    | batchedIndexScan hindex hslice =>
      exact decides_batchedIndexScan hunfinished (by omega) (by omega) hf.hasExactIndexes choice
        hindex hslice

/-- **No call is worth less than nothing.** -/
theorem zero_le_execute {budget : UInt64} {choice : FilterChoice} {reward : Float}
    (h : (f.execute budget choice).1 = .decided reward) : 0 ≤ reward := by
  rcases f.execute_slices budget choice with ⟨-, heq⟩ | ⟨-, -, heq⟩ | ⟨-, -, heq⟩ |
    ⟨-, -, -, slice, next, lookup, -, heq⟩ <;> rw [heq] at h
  · rw [← FilterAnswer.decided.inj h]
    decide
  · exact absurd h nofun
  · exact absurd h nofun
  · rw [← FilterAnswer.decided.inj h]
    exact zero_le_safeRatio _ _

/-- A slice keeps the invariant. -/
theorem IsExact.decided (hf : f.IsExact) {slice : Slice} {next : Nat}
    (hslice : f.Decides slice next) (lookup : Cursor) : (f.decided slice next lookup).IsExact where
  cardinality_lt := hf.cardinality_lt
  hasExactIndexes := hf.hasExactIndexes
  cursor_le := hslice.le
  rows_eq := by
    have hlt := hslice.lt
    have hrange : List.range next = List.range f.cursor ++ f.upTo next := by
      have happend := @List.range'_append_1 0 f.cursor (next - f.cursor)
      rw [Nat.zero_add, Nat.add_sub_of_le (Nat.le_of_lt hlt)] at happend
      rw [List.range_eq_range', List.range_eq_range', ← happend]
      rfl
    show (f.rows ++ slice.kept.toArray).toList = (List.range next).filter f.accepts
    rw [Array.toList_append, hf.rows_eq, hslice.kept, hrange, List.filter_append]

/-- What calls have made of a filter: it still filters the same table by the same predicates and
with the same indexes, and it is exact. -/
structure LeadsTo (f g : TableFilter) : Prop extends g.IsExact where
  query_eq : g.query = f.query
  table_eq : g.table = f.table
  cardinality_eq : g.cardinality = f.cardinality
  predicates_eq : g.predicates = f.predicates
  indexes_eq : g.indexes = f.indexes

theorem IsExact.leadsTo_self (hf : f.IsExact) : f.LeadsTo f := ⟨hf, rfl, rfl, rfl, rfl, rfl⟩

theorem LeadsTo.accepts_eq {g : TableFilter} (h : f.LeadsTo g) : g.accepts = f.accepts := by
  ext row
  unfold accepts tupleOf
  rw [h.query_eq, h.table_eq, h.predicates_eq]

theorem LeadsTo.fits {g : TableFilter} (h : f.LeadsTo g) {budget batches : UInt64}
    (hfits : f.Fits budget batches) : g.Fits budget batches where
  budget := by
    rw [h.cardinality_eq]
    exact hfits.budget
  batches := by
    rw [h.cardinality_eq]
    exact hfits.batches

/-- **A call of any choice keeps the invariant.** -/
theorem LeadsTo.execute {g : TableFilter} (h : f.LeadsTo g) {budget : UInt64}
    {choice : FilterChoice} (hfits : f.Fits budget choice.batches) :
    f.LeadsTo (g.execute budget choice).2 := by
  rcases execute_cases h.toIsExact (h.fits hfits) with ⟨-, heq⟩ | ⟨-, -, heq⟩ | ⟨-, -, heq⟩ |
    ⟨-, -, -, slice, next, lookup, hslice, heq⟩ <;> rw [heq]
  -- Only a slice changes the filter.
  · exact h
  · exact h
  · exact h
  · exact ⟨h.toIsExact.decided hslice lookup, h.query_eq, h.table_eq, h.cardinality_eq,
      h.predicates_eq, h.indexes_eq⟩

/-- A finished filter has kept all rows of its table on which all predicates hold. -/
theorem LeadsTo.rows_eq_of_isFinished {g : TableFilter} (h : f.LeadsTo g)
    (hfinished : g.isFinished = true) :
    g.rows.toList = (List.range f.cardinality).filter f.accepts := by
  have hge := of_decide_eq_true hfinished
  have hle := h.cursor_le
  have hcursor : g.cursor = f.cardinality := by
    rw [← h.cardinality_eq]
    omega
  rw [h.rows_eq, hcursor, h.accepts_eq]

end TableFilter

end AdaptiveJoin
