import AdaptiveJoin.Proofs.Filter.Calls
import AdaptiveJoin.Proofs.Index.Column

/-!
# Sequences of calls

The calls of a filter may choose freely how a slice is decided, one call unlike the other.

* `TableFilter.IsExact.execute_eq_refused_iff`: a call is refused if it asks for a missing index.
* `TableFilter.IsExact.execute_eq_overflow_iff`: a call has no room if the batches of an index have
  none.
* `TableFilter.IsExact.lt_execute`: any other call moves the cursor of an unfinished filter.
* `TableFilter.calls_exact`: after any calls the kept rows are those below the cursor on which all
  predicates hold.
* `TableFilter.execute_overflows`: a call that has no room, although its words fit.
-/

namespace AdaptiveJoin

namespace TableFilter

/-- A call: the number of rows of the slice, and how they are decided. -/
abbrev Call := UInt64 × FilterChoice

/-- The filter after some calls. -/
def afterCalls (f : TableFilter) (calls : List Call) : TableFilter :=
  calls.foldl (fun f call => (f.execute call.1 call.2).2) f

variable {f : TableFilter} {budget : UInt64} {choice : FilterChoice}

/-! ### One call -/

theorem isFinished_eq_false_iff : f.isFinished = false ↔ f.cursor < f.cardinality := by
  simp [isFinished]

/-- A call is refused exactly if it asks an unfinished filter for an index that is missing. -/
theorem IsExact.execute_eq_refused_iff (hf : f.IsExact) (hfits : f.Fits budget choice.batches) :
    (f.execute budget choice).1 = .refused ↔ f.isFinished = false ∧ f.Misses choice := by
  rw [isFinished_eq_false_iff]
  rcases execute_cases hf hfits with ⟨hfinished, heq⟩ | ⟨hlt, hmisses, heq⟩ |
    ⟨-, ⟨⟨p, hp, hpresent⟩, -⟩, heq⟩ | ⟨-, hmisses, -, _, _, _, -, heq⟩ <;> rw [heq]
  · exact iff_of_false nofun fun h => by omega
  · exact iff_of_true rfl ⟨hlt, hmisses⟩
  · -- The index that there is no room for is there.
    refine iff_of_false nofun ?_
    rintro ⟨-, p', hp', hnone⟩
    rw [Option.some.inj (hp'.symm.trans hp)] at hnone
    exact hpresent hnone
  · exact iff_of_false nofun fun h => hmisses h.2

/-- A call has no room exactly if it asks an unfinished filter for more batches, or for larger ones,
than there is room for. -/
theorem IsExact.execute_eq_overflow_iff (hf : f.IsExact) (hfits : f.Fits budget choice.batches) :
    (f.execute budget choice).1 = .overflow ↔
      f.isFinished = false ∧ f.Overflows budget choice := by
  rw [isFinished_eq_false_iff]
  rcases execute_cases hf hfits with ⟨hfinished, heq⟩ | ⟨-, ⟨p, hp, hnone⟩, heq⟩ |
    ⟨hlt, hoverflows, heq⟩ | ⟨-, -, hoverflows, _, _, _, -, heq⟩ <;> rw [heq]
  · exact iff_of_false nofun fun h => by omega
  · refine iff_of_false nofun ?_
    rintro ⟨-, ⟨p', hp', hpresent⟩, -⟩
    rw [Option.some.inj (hp'.symm.trans hp)] at hpresent
    exact hpresent hnone
  · exact iff_of_true rfl ⟨hlt, hoverflows⟩
  · exact iff_of_false nofun fun h => hoverflows h.2

/-- **A call that comes to no slice changes nothing.** -/
theorem execute_of_ne_decided (f : TableFilter) (budget : UInt64) (choice : FilterChoice)
    (h : ∀ reward, (f.execute budget choice).1 ≠ .decided reward) :
    (f.execute budget choice).2 = f := by
  rcases f.execute_slices budget choice with ⟨-, heq⟩ | ⟨-, -, heq⟩ | ⟨-, -, heq⟩ |
    ⟨-, -, -, _, _, _, -, heq⟩
  · rw [heq]
  · rw [heq]
  · rw [heq]
  · rw [heq] at h
    exact absurd rfl (h _)

/-- **A call that comes to a slice moves the cursor of an unfinished filter.** -/
theorem IsExact.lt_execute (hf : f.IsExact) (hfits : f.Fits budget choice.batches)
    (hunfinished : f.isFinished = false) {reward : Float}
    (hdecided : (f.execute budget choice).1 = .decided reward) :
    f.cursor < (f.execute budget choice).2.cursor := by
  rw [isFinished_eq_false_iff] at hunfinished
  rcases execute_cases hf hfits with ⟨hfinished, -⟩ | ⟨-, -, heq⟩ | ⟨-, -, heq⟩ |
    ⟨-, -, -, slice, next, lookup, hslice, heq⟩
  · omega
  · rw [heq] at hdecided
    exact absurd hdecided nofun
  · rw [heq] at hdecided
    exact absurd hdecided nofun
  · rw [heq]
    exact hslice.lt

/-! ### Many calls -/

/-- **Calls of any choices keep the invariant.** -/
theorem LeadsTo.afterCalls {g : TableFilter} (h : f.LeadsTo g) (calls : List Call)
    (hcalls : ∀ call ∈ calls, f.Fits call.1 call.2.batches) : f.LeadsTo (g.afterCalls calls) := by
  induction calls generalizing g with
  | nil => exact h
  | cons call rest ih =>
    have hfits := hcalls call List.mem_cons_self
    exact ih (h.execute hfits) fun c hc => hcalls c (List.mem_cons_of_mem _ hc)

/-- A filter that has decided no row is exact. -/
theorem isExact_start {query : Query} {table : Nat} {predicates : List Nat}
    {indexes : List (Option FilterIndex)}
    (h : (start query table predicates indexes).HasExactIndexes) :
    (start query table predicates indexes).IsExact where
  cardinality_lt := by
    show min (query.cardinality table) rowLimit < 2 ^ 32
    unfold rowLimit
    omega
  hasExactIndexes := h
  cursor_le := Nat.zero_le _
  rows_eq := rfl

/-- **Ways of deciding a slice can be mixed freely.**  After any calls of a filter whose indexes
supply the rows of their predicates, the kept rows are those below the cursor on which all
predicates hold, in ascending order, and the cursor does not pass the last row.  A further call of a
filter that is not finished asks for an index that is missing, asks for batches of an index for
which there is no room, or moves the cursor; in the first two cases it changes nothing. -/
theorem calls_exact {query : Query} {table : Nat} {predicates : List Nat}
    {indexes : List (Option FilterIndex)}
    (hindexes : (start query table predicates indexes).HasExactIndexes) (calls : List Call)
    (hcalls : ∀ call ∈ calls,
      (start query table predicates indexes).Fits call.1 call.2.batches) :
    let f := start query table predicates indexes
    let g := f.afterCalls calls
    g.rows.toList = (List.range g.cursor).filter f.accepts ∧
    g.rows.toList.Pairwise (· < ·) ∧
    g.cursor ≤ f.cardinality ∧
    ∀ budget choice, f.Fits budget choice.batches →
      ((g.execute budget choice).1 = .refused ↔ g.isFinished = false ∧ f.Misses choice) ∧
      ((g.execute budget choice).1 = .overflow ↔
        g.isFinished = false ∧ f.Overflows budget choice) ∧
      ((∀ reward, (g.execute budget choice).1 ≠ .decided reward) →
        (g.execute budget choice).2 = g) ∧
      (g.isFinished = false → ∀ reward, (g.execute budget choice).1 = .decided reward →
        g.cursor < (g.execute budget choice).2.cursor) := by
  intro f g
  have hg : f.LeadsTo g := (isExact_start hindexes).leadsTo_self.afterCalls calls hcalls
  have hrows : g.rows.toList = (List.range g.cursor).filter f.accepts := by
    rw [hg.rows_eq, hg.accepts_eq]
  refine ⟨hrows, ?_, ?_, fun budget choice hfits => ⟨?_, ?_, ?_, fun hunfinished reward h => ?_⟩⟩
  · rw [hrows]
    exact List.pairwise_lt_range.filter _
  · rw [← hg.cardinality_eq]
    exact hg.cursor_le
  · -- The indexes are those of the start, so a call is refused then and now alike.
    rw [hg.toIsExact.execute_eq_refused_iff (hg.fits hfits), Misses, Misses, hg.indexes_eq]
  · rw [hg.toIsExact.execute_eq_overflow_iff (hg.fits hfits), Overflows, Overflows, hg.indexes_eq]
  · exact g.execute_of_ne_decided budget choice
  · exact hg.toIsExact.lt_execute (hg.fits hfits) hunfinished h

/-! ### A sample filter -/

/-- A column of three cells, the first and the last of them alike. -/
def sampleColumn : Column := ⟨"id", .int #[some 1, some 2, some 1]⟩

/-- The query that looks for the rows of a table with a certain cell. -/
def sampleQuery : Query :=
  { Query.ofTables #[⟨"a", #[sampleColumn], by simp [commonRows]⟩] with
    predicates := #[.ofTables "a.id = 1" [0] (.constantEquality ⟨0, 0⟩ (.int 1)) fun tuple =>
      Comparison.eq.truth (sampleColumn.compareValue (tuple.row 0) (.int 1))] }

/-- The index of the sample column supplies the first and the last row. -/
theorem exists_supplies_sample : ∃ access : FilterIndex,
    (start sampleQuery 0 [0] [some access]).HasExactIndexes := by
  obtain ⟨index, -, hindex⟩ := ColumnIndex.ofColumn_eq_ok (c := sampleColumn) (by decide)
  refine ⟨⟨index, .int 1⟩, fun p access haccess => ?_⟩
  obtain ⟨hlt, heq⟩ := List.getElem?_eq_some_iff.1 (List.getElem?_toArray.symm.trans haccess)
  obtain rfl : p = 0 := Nat.lt_one_iff.1 hlt
  obtain rfl := Option.some.inj heq
  have hrows : (List.range (start sampleQuery 0 [0] [some ⟨index, .int 1⟩]).cardinality).filter
      ((start sampleQuery 0 [0] [some ⟨index, .int 1⟩]).satisfies 0) =
        ColumnIndex.rowsOfValue sampleColumn (.int 1) := rfl
  have hkind : sampleColumn.kind = .int → (Value.int 1).kind ≠ .double := by decide
  rw [hrows]
  exact ⟨hlt, ColumnIndex.pairwise_rowsOfValue _ _,
    fun after cursor => ColumnIndex.lookupValue_eq hindex hkind after cursor,
    fun after batch batches hbatch => ColumnIndex.lookupInPartition?_eq hindex hkind after hbatch⟩

/-- A slice of one row in turn, a slice from the index in two batches, and a call for an index that
is missing. -/
def sampleCalls : List Call :=
  [(1, .start), (2, ⟨[7, 0, 0], some 0, false, 2⟩), (1, ⟨[], some 3, false, 0⟩)]

theorem calls_exact_sample : ∃ access : FilterIndex,
    (start sampleQuery 0 [0] [some access]).HasExactIndexes ∧
    ((start sampleQuery 0 [0] [some access]).afterCalls sampleCalls).rows.toList =
      (List.range ((start sampleQuery 0 [0] [some access]).afterCalls sampleCalls).cursor).filter
        (start sampleQuery 0 [0] [some access]).accepts := by
  obtain ⟨access, haccess⟩ := exists_supplies_sample
  have hfits : ∀ call ∈ sampleCalls,
      call.1.toNat + 3 < 2 ^ 64 ∧ 3 + call.2.batches.toNat ≤ 2 ^ 32 := by decide
  exact ⟨access, haccess, (calls_exact haccess sampleCalls fun call hcall =>
    ⟨(hfits call hcall).1, (hfits call hcall).2⟩).1⟩

/-- **A call can ask for too much room although its words fit.**  Each of two batches would have
room for 2^61 rows, which is 2^63 bytes, to be supplied with one row. -/
theorem execute_overflows : ∃ access : FilterIndex,
    (start sampleQuery 0 [0] [some access]).HasExactIndexes ∧
    (start sampleQuery 0 [0] [some access]).Fits 4611686018427387904 2 ∧
    (start sampleQuery 0 [0] [some access]).isFinished = false ∧
    (start sampleQuery 0 [0] [some access]).execute 4611686018427387904 ⟨[0], some 0, false, 2⟩ =
      (.overflow, start sampleQuery 0 [0] [some access]) := by
  obtain ⟨access, haccess⟩ := exists_supplies_sample
  have hfits : (start sampleQuery 0 [0] [some access]).Fits 4611686018427387904 2 := by
    have hwords : (4611686018427387904 : UInt64).toNat + 3 < 2 ^ 64 ∧
      3 + (2 : UInt64).toNat ≤ 2 ^ 32 := by decide
    exact ⟨hwords.1, hwords.2⟩
  have hoverflows : (start sampleQuery 0 [0] [some access]).Overflows 4611686018427387904
      ⟨[0], some 0, false, 2⟩ := ⟨⟨0, rfl, nofun⟩, by decide, by decide⟩
  have hanswer : ((start sampleQuery 0 [0] [some access]).execute 4611686018427387904
      ⟨[0], some 0, false, 2⟩).1 = .overflow :=
    ((isExact_start haccess).execute_eq_overflow_iff hfits).2 ⟨rfl, hoverflows⟩
  refine ⟨access, haccess, hfits, rfl, Prod.ext hanswer (execute_of_ne_decided _ _ _ fun _ => ?_)⟩
  rw [hanswer]
  exact nofun

end TableFilter

end AdaptiveJoin
