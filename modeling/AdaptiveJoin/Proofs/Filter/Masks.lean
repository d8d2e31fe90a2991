import AdaptiveJoin.Filter.Rows
import AdaptiveJoin.Proofs.Filter.Episodes
import AdaptiveJoin.Proofs.Plan.Lookups

/-!
# Filtered tables

The rows that `Query.filterTable` keeps depend on the query alone, not on what the episodes have
learned, on the configuration or on the random draws.

* `FilterIndex.supplies_of_filterIndex?`: the index of a predicate supplies the rows on which it
  holds.
* `Query.SuitsFilter.rows_filterTable`: the kept rows are those on which all predicates of the table
  hold.
* `FilteredTable.exists_toMask?`: rows of the table have a mask that tells which they are.
-/

namespace AdaptiveJoin

namespace Query

/-- The tuple on which a filter evaluates predicates. -/
def rowTuple (q : Query) (table row : Nat) : Tuple :=
  (Array.replicate q.nrTables 0).setIfInBounds table row

/-- Whether all predicates hold of a row that only its table decides. -/
def keeps (q : Query) (table row : Nat) : Bool :=
  (q.unaryPredicates table).all fun id => q.holds id (q.rowTuple table row)

variable {q : Query} {table id : Nat}

/-- Tables with predicates of their own are tables of the query. -/
theorem table_lt_of_mem_unaryPredicates (hq : ∀ p ∈ q.predicates, q.Explains p)
    (hid : id ∈ q.unaryPredicates table) : table < q.nrTables := by
  obtain ⟨p, hp, htables⟩ := mem_unaryPredicates.1 hid
  refine ((hq p (Array.mem_of_getElem? hp)).tables_lt table ?_).1
  rw [htables]
  exact List.mem_singleton.2 rfl

theorem row_rowTuple (htable : table < q.nrTables) (row : Nat) :
    (q.rowTuple table row).row table = row := by
  unfold rowTuple
  rw [Tuple.row_setIfInBounds, if_pos ⟨rfl, by simpa using htable⟩]

/-- A predicate of one table holds of a tuple as it does of the row of the table. -/
theorem holds_rowTuple (hq : ∀ p ∈ q.predicates, q.Explains p) (hid : id ∈ q.unaryPredicates table)
    {tuple : Tuple} (htuple : tuple.size = q.nrTables) :
    q.holds id tuple = q.holds id (q.rowTuple table (tuple.row table)) := by
  obtain ⟨p, hp, htables⟩ := mem_unaryPredicates.1 hid
  have heval : p.eval tuple = p.eval (q.rowTuple table (tuple.row table)) := by
    apply (hq p (Array.mem_of_getElem? hp)).isLocal _ _ htuple (by simp [rowTuple])
    intro t ht
    rw [htables, List.mem_singleton] at ht
    rw [ht, row_rowTuple (table_lt_of_mem_unaryPredicates hq hid)]
  rw [holds, holds, hp]
  simp only [heval]

end Query

/-- What the filter of a table relies on: the table is small, and its predicates mean what their
shapes say and equate no integer column with a double constant. -/
structure Query.SuitsFilter (q : Query) (table : Nat) : Prop where
  table_lt : table < q.nrTables
  cardinality_lt : q.cardinality table < 2 ^ 31
  describes : ∀ p ∈ q.predicates, p.tables = [table] → q.Describes p
  hasExactConstants : ∀ p ∈ q.predicates, p.tables = [table] →
    ∀ column value c, p.shape = .constantEquality column value →
      q.column? column = some c → c.kind = .int → value.kind ≠ .double

theorem Query.Built.suitsFilter {q : Query} (h : q.Built) (hsmall : q.HasSmallTables)
    (hexact : q.HasExactConstants) {table : Nat} (htable : table < q.nrTables) :
    q.SuitsFilter table where
  table_lt := htable
  cardinality_lt := hsmall.cardinality_lt table
  describes p hp _ := (h.explains p hp).toDescribes
  hasExactConstants p hp _ := hexact p hp

/-- The filter of a table that has decided no row. -/
def Query.startFilter (q : Query) (catalog : Catalog) (table : Nat) : TableFilter :=
  .start q table (q.unaryPredicates table) ((q.unaryPredicates table).map (q.filterIndex? catalog))

theorem Query.accepts_startFilter (q : Query) (catalog : Catalog) (table : Nat) :
    (q.startFilter catalog table).accepts = q.keeps table := by
  ext row
  exact List.all_toArray

/-- What calls keep is kept until all rows are decided. -/
theorem FilterTree.Run.Holds.exhaust {γ : Type} [RandomSource γ] {c : FilterConfig}
    {P : TableFilter → Prop} (hP : c.Keeps P) {r r' : FilterTree.Run γ}
    (hr : r.Holds (·.IsBounded c) P) {episodes episodes' : Nat}
    (h : FilterTree.Run.exhaust episodes r = some (episodes', r')) :
    r'.Holds (·.IsBounded c) P ∧ r'.filter.isFinished = true := by
  refine FilterTree.Run.exhaust.partial_correctness
    (fun _ r result => r.Holds (·.IsBounded c) P →
      result.2.Holds (·.IsBounded c) P ∧ result.2.filter.isFinished = true)
    ?_ episodes r (episodes', r') h hr
  intro exhaust ih episodes r result h hr
  split at h
  · rename_i hfinished
    obtain rfl := Option.some.inj h
    exact ⟨hr, hfinished⟩
  · -- An episode that asks for too much room comes to no result.
    have hkeeps := sample_keeps hP hr.tree (episodes + 1) r.source hr.filter
    generalize r.tree.sample (episodes + 1) r.source r.filter = answered at h hkeeps
    obtain ⟨answer, r⟩ := answered
    cases answer with
    | decided reward => exact ih _ _ _ h hkeeps
    | refused => exact ih _ _ _ h hkeeps
    | overflow => exact absurd h (by simp)

/-- What calls keep is known of the rows that a table is filtered to: of all rows without
predicates, and else of those of a finished filter. -/
theorem Query.filterTable_keeps {γ : Type} [RandomSource γ] {q : Query} {table : Nat}
    {catalog : Catalog} {config : FilterConfig} {P : TableFilter → Prop} (hP : config.Keeps P)
    (hstart : P (q.startFilter catalog table)) {source : γ} {filtered : FilteredTable}
    (h : q.filterTable table catalog config source = some filtered) :
    (q.unaryPredicates table = [] ∧ filtered.rows = List.range (q.cardinality table)) ∨
      ∃ f, P f ∧ f.isFinished = true ∧ filtered.rows = f.rows.toList := by
  unfold Query.filterTable at h
  dsimp only at h
  split at h
  · -- Without predicates no episode runs.
    rename_i hnone
    obtain rfl := Option.some.inj h
    exact Or.inl ⟨List.isEmpty_iff.1 hnone, rfl⟩
  · obtain ⟨⟨episodes, r⟩, hexhaust, rfl⟩ := Option.map_eq_some_iff.1 h
    obtain ⟨hkeeps, hfinished⟩ := FilterTree.Run.Holds.exhaust hP
      ⟨FilterTree.isBounded_start _ config, hstart⟩ hexhaust
    exact Or.inr ⟨r.filter, hkeeps.filter, hfinished, rfl⟩

/-! ### Indexes of a table -/

/-- What the index of a predicate is. -/
theorem Query.filterIndex?_eq_some {q : Query} {catalog : Catalog} {id : Nat} {access : FilterIndex}
    (h : q.filterIndex? catalog id = some access) : ∃ p column, q.predicates[id]? = some p ∧
      p.shape = .constantEquality column access.value ∧
      catalog.index? column = some access.index := by
  unfold Query.filterIndex? at h
  split at h
  · rename_i column value hshape
    obtain ⟨p, hp, hshape⟩ := Option.map_eq_some_iff.1 hshape
    split at h
    · rename_i index hindex
      split at h
      · obtain rfl := Option.some.inj h
        exact ⟨p, column, hp, hshape, hindex⟩
      · exact absurd h (by simp)
    · exact absurd h (by simp)
  · exact absurd h (by simp)

/-- The indexes of a filter are those of the predicates of its table. -/
theorem Query.indexes_startFilter {q : Query} {catalog : Catalog} {table p : Nat}
    {access : FilterIndex}
    (h : (q.startFilter catalog table).indexes[p]? = some (some access)) :
    ∃ id, (q.unaryPredicates table)[p]? = some id ∧ q.filterIndex? catalog id = some access := by
  simpa only [startFilter, TableFilter.start, List.getElem?_toArray, List.getElem?_map,
    Option.map_eq_some_iff] using h

section Table

variable {q : Query} {table : Nat} {catalog : Catalog} (hq : q.SuitsFilter table)
  (hcatalog : catalog.IsBuiltFor q)

include hq

theorem Query.SuitsFilter.cardinality_startFilter :
    (q.startFilter catalog table).cardinality = q.cardinality table := by
  have := hq.cardinality_lt
  show min (q.cardinality table) rowLimit = _
  unfold rowLimit
  omega

include hcatalog

/-- **The index of a predicate supplies the rows on which it holds.** -/
theorem FilterIndex.supplies_of_filterIndex? {id : Nat} (hid : id ∈ q.unaryPredicates table)
    {access : FilterIndex} (h : q.filterIndex? catalog id = some access) :
    access.Supplies ((List.range (q.cardinality table)).filter fun row =>
      q.holds id (q.rowTuple table row)) := by
  obtain ⟨p, column, hp, hshape, hindex⟩ := Query.filterIndex?_eq_some h
  obtain ⟨p', hp', htables⟩ := Query.mem_unaryPredicates.1 hid
  obtain rfl := Option.some.inj (hp'.symm.trans hp)
  have hmem := Array.mem_of_getElem? hp
  obtain ⟨c, hc, hok⟩ := hcatalog column access.index hindex
  obtain ⟨htables', c', hc', heval⟩ :=
    (hq.describes p' hmem htables).constantEquality column access.value hshape
  obtain rfl := Option.some.inj (hc.symm.trans hc')
  have htable : column.table = table := by
    rw [htables, List.cons.injEq] at htables'
    exact htables'.1.symm
  have hsize := Query.size_eq_cardinality hc
  have hsmall : c.size < 2 ^ 31 := by
    rw [hsize, htable]
    exact hq.cardinality_lt
  have hrep := ColumnIndex.represents_of_ofColumn hsmall hok
  have hconstant := hq.hasExactConstants p' hmem htables column access.value c hshape hc
  -- The predicate holds on the rows of which the cell compares as equal to the constant.
  have hrows : (List.range (q.cardinality table)).filter (fun row =>
      q.holds id (q.rowTuple table row)) = ColumnIndex.rowsOfValue c access.value := by
    unfold ColumnIndex.rowsOfValue
    rw [hsize, htable]
    apply List.filter_congr
    intro row hrow
    rw [Query.holds, hp, Bool.eq_iff_iff, beq_iff_eq, beq_iff_eq, heval,
      Comparison.truth_eq_holds_iff, htable, Query.row_rowTuple hq.table_lt]
  rw [hrows]
  exact ⟨ColumnIndex.pairwise_rowsOfValue _ _,
    fun after cursor => ColumnIndex.lookupValue_eq hrep hconstant after cursor,
    fun after batch batches hbatch =>
      ColumnIndex.lookupInPartition?_eq hrep hconstant after hbatch⟩

/-- The filter of a table is exact at the start. -/
theorem Query.SuitsFilter.isExact_startFilter : (q.startFilter catalog table).IsExact where
  cardinality_lt := by
    have := hq.cardinality_lt
    rw [hq.cardinality_startFilter]
    omega
  hasExactIndexes := by
    intro p access haccess
    rw [hq.cardinality_startFilter]
    obtain ⟨id, hid, haccess⟩ := Query.indexes_startFilter haccess
    have hlt := (List.getElem?_eq_some_iff.1 hid).1
    -- The predicate at a place of the list is evaluated on the row alone.
    have hsatisfies : (q.startFilter catalog table).satisfies p =
        fun row => q.holds id (q.rowTuple table row) := by
      ext row
      show q.holds ((q.unaryPredicates table).toArray[p]?.getD 0) _ = _
      rw [List.getElem?_toArray, hid]
      rfl
    rw [hsatisfies]
    exact ⟨hlt, FilterIndex.supplies_of_filterIndex? hq hcatalog (List.mem_of_getElem? hid)
      haccess⟩
  cursor_le := Nat.zero_le _
  rows_eq := rfl

/-- **The rows that a filter keeps are those on which all predicates of the table hold**, whatever
has been learned and drawn. -/
theorem Query.SuitsFilter.rows_filterTable {γ : Type} [RandomSource γ] {config : FilterConfig}
    (hfits : config.Fits (q.cardinality table)) {source : γ} {filtered : FilteredTable}
    (h : q.filterTable table catalog config source = some filtered) :
    filtered.rows = (List.range (q.cardinality table)).filter (q.keeps table) := by
  have hfits' : config.Fits (q.startFilter catalog table).cardinality :=
    hq.cardinality_startFilter.symm ▸ hfits
  have hcalls : config.Keeps (q.startFilter catalog table).LeadsTo :=
    fun g choice hg hoffers => hg.execute (hfits'.fits hoffers)
  obtain ⟨hnone, hrows⟩ | ⟨f, hf, hfinished, hrows⟩ :=
    Query.filterTable_keeps hcalls (hq.isExact_startFilter hcatalog).leadsTo_self h
  · have hkeeps : ∀ row ∈ List.range (q.cardinality table), q.keeps table row = true :=
      fun row _ => by rw [Query.keeps, hnone, List.all_nil]
    rw [hrows, List.filter_eq_self.2 hkeeps]
  · rw [hrows, hf.rows_eq_of_isFinished hfinished, hq.cardinality_startFilter,
      Query.accepts_startFilter]

end Table

/-! ### Masks -/

/-- Marking some rows in a mask. -/
theorem getElem?_foldl_mark (rows : List Nat) (mask : RowMask) (row : Nat) :
    (rows.foldl (fun mask row => mask.setIfInBounds row true) mask)[row]?.getD false =
      (mask[row]?.getD false || decide (row ∈ rows ∧ row < mask.size)) := by
  induction rows generalizing mask with
  | nil => simp
  | cons first rest ih =>
    rw [List.foldl_cons, ih, Array.getElem?_setIfInBounds, Array.size_setIfInBounds]
    by_cases heq : first = row
    · subst heq
      by_cases hlt : first < mask.size <;> simp [hlt]
    · simp [heq, Ne.symm heq]

/-- The mask of a table tells which of its rows are kept. -/
theorem FilteredTable.getElem?_toMask (f : FilteredTable) (n row : Nat) :
    (f.toMask n)[row]?.getD false = decide (row ∈ f.rows ∧ row < n) := by
  unfold FilteredTable.toMask
  rw [getElem?_foldl_mark, Array.size_replicate, Array.getElem?_replicate]
  split <;> rfl

theorem FilteredTable.eq_toMask_of_toMask? {f : FilteredTable} {n : Nat} {mask : RowMask}
    (h : f.toMask? n = some mask) : (∀ row ∈ f.rows, row < n) ∧ mask = f.toMask n := by
  unfold toMask? at h
  split at h
  · rename_i hall
    exact ⟨by simpa using hall, (Option.some.inj h).symm⟩
  · exact absurd h (by simp)

/-- **Rows of the table have a mask**, which tells which rows they are. -/
theorem FilteredTable.exists_toMask? {f : FilteredTable} {n : Nat} (h : ∀ row ∈ f.rows, row < n) :
    ∃ mask, f.toMask? n = some mask ∧ ∀ row, mask[row]?.getD false = decide (row ∈ f.rows) := by
  refine ⟨f.toMask n, if_pos (by simpa using h), fun row => ?_⟩
  rw [getElem?_toMask, decide_eq_decide]
  exact and_iff_left_of_imp (h row)

end AdaptiveJoin
