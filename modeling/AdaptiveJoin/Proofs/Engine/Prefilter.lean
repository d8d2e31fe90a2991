import AdaptiveJoin.Proofs.Engine.Preparation
import AdaptiveJoin.Proofs.Filter.Bounds
import AdaptiveJoin.Proofs.Filter.Learned

/-!
# Filtering all tables

Predicates need not be what their shapes say: a predicate may be evaluated on one table and equate a
column of another one with a constant.  The index of that column then supplies the rows of the first
table.

* `Engine.prefilter_safe`: as long as no such column is longer than the table, tables are filtered
  to rows of their own, and all masks can be made.
* `Engine.prefilter_otherTableQuery`: a valid query with a longer column, where one cannot.
-/

namespace AdaptiveJoin

namespace Engine

variable {γ : Type} [RandomSource γ] {q : Query} {catalog : Catalog} {config : FilterConfig}

/-- All tables have masks if their filters end and keep rows of the tables only. -/
theorem exists_prefilter {source : Nat → γ} (h : ∀ table < q.nrTables,
    ∃ filtered, q.filterTable table catalog config (source table) = some filtered ∧
      ∀ row ∈ filtered.rows, row < q.cardinality table) :
    ∃ masks, prefilter q catalog config source = some masks := by
  refine exists_mapM_eq_some fun table htable => ?_
  split
  · exact ⟨none, rfl⟩
  · obtain ⟨filtered, hfiltered, hrows⟩ := h table (Array.mem_range.1 htable)
    obtain ⟨mask, hmask, -⟩ := FilteredTable.exists_toMask? hrows
    rw [hfiltered, Option.bind_some, hmask]
    exact ⟨some mask, rfl⟩

/-- **Filtering the tables of a valid query is safe**, as long as no table takes its rows from the
index of a longer column.  Every table is filtered to rows of its own, in ascending order unless
words overflow, so its mask can be made.  If the configuration leaves room for its batches, no
episode asks for too much, and all masks can be made once the filters have decided all rows. -/
theorem prefilter_safe (hvalid : q.validate = .ok ()) (hcatalog : Catalog.forQuery q = .ok catalog)
    (hconstants : q.HasOwnConstants) :
    (∀ table (source : γ) filtered, q.filterTable table catalog config source = some filtered →
      (∀ row ∈ filtered.rows, row < q.cardinality table) ∧
      (config.Fits (q.cardinality table) → filtered.rows.Pairwise (· < ·)) ∧
      ∃ mask, filtered.toMask? (q.cardinality table) = some mask ∧
        ∀ row, mask[row]?.getD false = decide (row ∈ filtered.rows)) ∧
    ((∀ table, config.HasRoom ((q.indexedPredicates table catalog).any id)) →
      (∀ table (source : γ) episodes,
        ((q.startRun table catalog config source).episodeAfter episodes).1 ≠ .overflow) ∧
      ∀ source : Nat → γ,
        (∀ table < q.nrTables, q.unaryPredicates table ≠ [] → ∃ episodes,
          ((q.startRun table catalog config (source table)).afterEpisodes
            episodes).filter.isFinished = true) →
        ∃ masks, prefilter q catalog config source = some masks) := by
  have hcardinality := (Query.isValid_of_validate hvalid).cardinality_lt
  have hbuilt := Catalog.isBuiltFor_forQuery hcatalog
  refine ⟨fun table source filtered h => ?_, fun hroom => ⟨fun table source episodes => ?_,
    fun source hends => exists_prefilter fun table htable => ?_⟩⟩
  · -- Whatever slices are decided, the rows come from the table or from an index of its columns.
    have hrows := Query.rows_filterTable_lt (hcardinality table) hbuilt hconstants h
    exact ⟨hrows, Query.pairwise_rows_filterTable (hcardinality table) hbuilt hconstants h,
      FilteredTable.exists_toMask? hrows⟩
  · exact Query.episodeAfter_startRun_ne_overflow (hroom table) source episodes
  · -- A filter that decides all rows answers them, and none lies beyond the mask.
    obtain ⟨filtered, h⟩ :=
      Query.exists_filterTable_of_isFinished (hroom table) (hends table htable)
    exact ⟨filtered, h, Query.rows_filterTable_lt (hcardinality table) hbuilt hconstants h⟩

/-! ### The sample query -/

theorem hasOwnConstants_sample : Query.sample.HasOwnConstants :=
  Query.hasOwnConstants_of_makes fun p hp => (Query.built_sample.makes p hp).1

/-- Only the first table of the sample query has predicates of its own, and three episodes decide
its rows. -/
theorem isFinished_sample {table : Nat} (htable : table < Query.sample.nrTables)
    (hsome : Query.sample.unaryPredicates table ≠ []) : ∃ episodes,
      ((Query.sample.startRun table .sample .sample (⟨30⟩ : SplitMix)).afterEpisodes
        episodes).filter.isFinished = true := by
  have hother : ∀ table < 2, Query.sample.unaryPredicates table ≠ [] → table = 0 := by decide
  obtain rfl := hother table htable hsome
  exact ⟨3, by rw [Query.startRun_sample]; exact Query.isFinished_sampleRun⟩

theorem exists_filterTable_sample {table : Nat} (htable : table < Query.sample.nrTables) :
    ∃ filtered, Query.sample.filterTable table .sample .sample (⟨30⟩ : SplitMix) = some filtered :=
  Query.exists_filterTable_of_isFinished (FilterConfig.hasRoom_sample _) (isFinished_sample htable)

/-- The tables of the sample query have masks. -/
theorem exists_prefilter_sample :
    ∃ masks, prefilter .sample .sample .sample (fun _ => (⟨30⟩ : SplitMix)) = some masks := by
  refine exists_prefilter fun table htable => ?_
  obtain ⟨filtered, h⟩ := exists_filterTable_sample htable
  have hcardinality := (Query.isValid_of_validate Query.validate_sample).cardinality_lt
  exact ⟨filtered, h, Query.rows_filterTable_lt (hcardinality table) Catalog.isBuiltFor_sample
    hasOwnConstants_sample h⟩

/-- The first table of the sample query is filtered in steps of two rows to rows of its own, and
both tables get their masks. -/
theorem prefilter_safe_sample : Query.sample.validate = .ok () ∧
    Catalog.forQuery .sample = .ok .sample ∧ Query.sample.HasOwnConstants ∧
    (∃ filtered, Query.sample.filterTable 0 .sample .sample (⟨30⟩ : SplitMix) = some filtered ∧
      (∀ row ∈ filtered.rows, row < 5) ∧ filtered.rows.Pairwise (· < ·)) ∧
    ∃ masks, prefilter .sample .sample .sample (fun _ => (⟨30⟩ : SplitMix)) = some masks := by
  obtain ⟨hsafe, hmasks⟩ := @prefilter_safe SplitMix _ .sample .sample .sample
    Query.validate_sample Catalog.forQuery_sample hasOwnConstants_sample
  obtain ⟨filtered, hfiltered⟩ :=
    exists_filterTable_sample (show 0 < Query.sample.nrTables by decide)
  obtain ⟨hrows, hascending, -⟩ := hsafe 0 ⟨30⟩ filtered hfiltered
  have hfits := FilterConfig.fits_sample Query.suitsFilter_sample.cardinality_lt
  have hroom (table : Nat) :=
    FilterConfig.hasRoom_sample ((Query.sample.indexedPredicates table .sample).any id)
  exact ⟨Query.validate_sample, Catalog.forQuery_sample, hasOwnConstants_sample,
    ⟨filtered, hfiltered, hrows, hascending hfits⟩,
    (hmasks hroom).2 _ fun _ htable hsome => isFinished_sample htable hsome⟩

end Engine

/-! ### A constant of another table -/

/-- A filter of one predicate with an index first keeps the first row of the index. -/
theorem TableFilter.execute_first {f : TableFilter} {access : FilterIndex} {row : Nat}
    {rows : List Nat} (hunfinished : f.isFinished = false) (hcursor : f.cursor = 0)
    (hkept : f.rows = #[]) (hsize : f.predicates.size = 1)
    (hindex : f.indexes[0]? = some (some access)) (hsupplies : access.Supplies (row :: rows)) :
    ∃ reward f', f.execute 1 ⟨[0], some 0, false, 0⟩ = (.decided reward, f') ∧
      f'.cardinality = f.cardinality ∧ f'.cursor = row + 1 ∧ f'.rows = #[row] := by
  have horder : f.evaluationOrder ⟨[0], some 0, false, 0⟩ (some 0) = [] := by
    refine List.eq_nil_iff_forall_not_mem.2 fun p hp => ?_
    obtain ⟨hlt, hne⟩ := mem_evaluationOrder.1 hp
    rw [hsize] at hlt
    exact hne (congrArg some (Nat.lt_one_iff.1 hlt))
  obtain ⟨hsupplied, hlast⟩ := supply_eq hsupplies 1 (-1) f.lookup
  rw [rowsAfter_start] at hsupplied hlast
  -- The index supplies its first row, before which nothing is kept.
  have hscan : (f.indexScan access [] 1).1 = f.decideRows [] [row] ∧
      (f.indexScan access [] 1).2.1 = row + 1 := by
    unfold indexScan
    rw [hcursor, show ((0 : Nat) : Int) - 1 = -1 from rfl]
    dsimp only
    rw [hsupplied, hlast, if_neg (by simp)]
    exact ⟨rfl, rfl⟩
  unfold execute
  rw [hunfinished]
  simp only [Bool.false_eq_true, if_false, hindex, Option.join_some, horder]
  refine ⟨_, _, rfl, rfl, hscan.2, ?_⟩
  show f.rows ++ (f.indexScan access [] 1).1.kept.toArray = #[row]
  rw [hkept, hscan.1, kept_decideRows]
  rfl

namespace FilterTree

/-- An episode whose first action leads to a leaf decides a slice as the action says. -/
theorem sample_of_leaf {γ : Type} [RandomSource γ] {t tree : FilterTree} {episode : Nat}
    {source : γ} {f : TableFilter} {action child : Nat} {choice : FilterChoice} {r r' : Run γ}
    {reward : Float}
    (hroot : (t.node 0).kind ≠ .leaf)
    (hselect : (⟨t, source, f⟩ : Run γ).select? 0 .start = (some (action, choice), r))
    (hexpand : r.tree.expand? 0 action episode = some tree)
    (hchild : (tree.node 0).child? action = some child) (hleaf : (tree.node child).kind = .leaf)
    (hexecute : ({ r with tree := tree } : Run γ).execute choice = (.decided reward, r')) :
    (t.sample episode source f).1 = .decided reward ∧
      (t.sample episode source f).2.filter = r'.filter := by
  have hbehind : Run.sampleNode episode (t.nrPredicates + 2) child choice { r with tree := tree } =
      (.decided reward, r') := by
    rw [Run.sampleNode, if_pos hleaf, hexecute]
  rw [sample, Run.sampleNode]
  dsimp only
  -- The first attempt takes the selected action, and the node behind it has nothing to choose.
  rw [if_neg hroot, Run.attempt, hselect]
  dsimp only
  rw [hexpand]
  dsimp only [Run.follow]
  rw [hchild]
  dsimp only
  rw [hbehind]
  exact ⟨rfl, rfl⟩

/-- The loop ends with the first episode if this decides all rows. -/
theorem exhaust_of_first {γ : Type} [RandomSource γ] {t : FilterTree} {source : γ}
    {f : TableFilter} {reward : Float} (hunfinished : f.isFinished = false)
    (hdecided : (t.sample 1 source f).1 = .decided reward)
    (hfinished : (t.sample 1 source f).2.filter.isFinished = true) :
    Run.exhaust 0 ⟨t, source, f⟩ = some (1, (t.sample 1 source f).2) := by
  rw [Run.exhaust, if_neg (by rw [hunfinished]; decide)]
  dsimp only
  rw [Nat.zero_add]
  generalize t.sample 1 source f = result at hdecided hfinished ⊢
  obtain ⟨answer, r⟩ := result
  obtain rfl : answer = .decided reward := hdecided
  dsimp only
  rw [Run.exhaust, if_pos hfinished]

/-- The tree of a predicate with an index, for slices of one row that are not split. -/
def rowByRow : FilterTree :=
  .start [true] { rowsPerStep := 1, parallelRowsPerStep := 1, rowParallelism := false }

/-- What the root selects in the first episode. -/
def firstSelection : Option Nat × FilterNode × SplitMix :=
  (rowByRow.node 0).select? rowByRow.config.explorationWeight ⟨1⟩

/-- The tree after this selection. -/
def rowByRowSelected : FilterTree := rowByRow.modifyNode 0 fun _ => firstSelection.2.1

/-- The tree with the node behind the action that the first episode takes the index by. -/
def rowByRowExpanded : FilterTree := (rowByRowSelected.expand? 0 1 1).get (by decide +kernel)

/-- The first episode takes the rows from the index. -/
theorem sample_rowByRow {f f' : TableFilter} {reward : Float}
    (h : f.execute 1 ⟨[0], some 0, false, 0⟩ = (.decided reward, f')) :
    (rowByRow.sample 1 (⟨1⟩ : SplitMix) f).1 = .decided reward ∧
      (rowByRow.sample 1 (⟨1⟩ : SplitMix) f).2.filter = f' := by
  -- Action 0 is to evaluate the predicate, action 1 to take its index.
  have hselected : firstSelection.1 = some 1 := by decide +kernel
  have hselection : (rowByRow.node 0).select? rowByRow.config.explorationWeight (⟨1⟩ : SplitMix) =
      (some 1, firstSelection.2) := by
    rw [← hselected]
    rfl
  have hselect : (⟨rowByRow, ⟨1⟩, f⟩ : Run SplitMix).select? 0 .start =
      (some (1, ⟨[0], some 0, false, 0⟩), ⟨rowByRowSelected, firstSelection.2.2, f⟩) := by
    simp only [Run.select?, hselection]
    rfl
  have hexpand : rowByRowSelected.expand? 0 1 1 = some rowByRowExpanded :=
    (Option.some_get _).symm
  have hexecute : (⟨rowByRowExpanded, firstSelection.2.2, f⟩ : Run SplitMix).execute
      ⟨[0], some 0, false, 0⟩ =
        (.decided reward, ⟨rowByRowExpanded, firstSelection.2.2, f'⟩) := by
    have hconfig : rowByRowExpanded.config.rowsPerStep = 1 := rfl
    simp only [Run.execute, hconfig, UInt64.lt_irrefl, if_false, h]
  have hroot : (rowByRow.node 0).kind ≠ .leaf := by decide +kernel
  have hchild : (rowByRowExpanded.node 0).child? 1 = some 1 := by decide +kernel
  have hleaf : (rowByRowExpanded.node 1).kind = .leaf := by decide +kernel
  exact sample_of_leaf hroot hselect hexpand hchild hleaf hexecute

end FilterTree

namespace Engine

/-- The longer column. -/
def longerColumn : Column := ⟨"b", .int #[some 0, some 0, some 0, some 0, some 1]⟩

/-- A table of four rows, with a predicate that equates the column of a table of five rows with a
constant. -/
def otherTableQuery : Query :=
  { Query.ofTables #[
      ⟨"t", #[⟨"a", .int #[some 1, some 2, some 3, some 4]⟩], by simp [commonRows]⟩,
      ⟨"u", #[longerColumn], by simp [commonRows]⟩] with
    predicates := #[
      .ofTables "u.b = 1" [0] (.constantEquality ⟨1, 0⟩ (.int 1)) fun _ => .holds] }

/-- The index of the longer column serves the predicate. -/
theorem filterIndex?_otherTableQuery {catalog : Catalog} {ix : ColumnIndex}
    (hcatalog : catalog.index? ⟨1, 0⟩ = some ix) (haccepts : ix.accepts (.int 1) = true) :
    (otherTableQuery.unaryPredicates 0).map (otherTableQuery.filterIndex? catalog) =
      [some ⟨ix, .int 1⟩] := by
  have hpredicates : otherTableQuery.unaryPredicates 0 = [0] := by decide
  have hshape : otherTableQuery.predicates[0]?.map Predicate.shape =
      some (.constantEquality ⟨1, 0⟩ (.int 1)) := rfl
  rw [hpredicates, List.map_singleton, Query.filterIndex?, hshape]
  simp only [hcatalog, haccepts, if_true]

/-- The index supplies the table with row 4, which it does not have. -/
theorem execute_otherTableQuery {catalog : Catalog} {ix : ColumnIndex}
    (hcatalog : catalog.index? ⟨1, 0⟩ = some ix) (haccepts : ix.accepts (.int 1) = true)
    (hrep : ix.Represents longerColumn) :
    ∃ reward f, (otherTableQuery.startFilter catalog 0).execute 1 ⟨[0], some 0, false, 0⟩ =
        (.decided reward, f) ∧ f.isFinished = true ∧ f.rows = #[4] := by
  have hindex : (otherTableQuery.startFilter catalog 0).indexes[0]? = some (some ⟨ix, .int 1⟩) := by
    show ((otherTableQuery.unaryPredicates 0).map
      (otherTableQuery.filterIndex? catalog)).toArray[0]? = _
    rw [filterIndex?_otherTableQuery hcatalog haccepts]
    rfl
  have hrows : ColumnIndex.rowsOfKey longerColumn (.int 1) = [4] := by decide
  have hsupplies := hrep.supplies (.int 1)
  rw [hrows] at hsupplies
  obtain ⟨reward, f, hexecute, hcardinality, hcursor, hkept⟩ :=
    TableFilter.execute_first rfl rfl rfl rfl hindex hsupplies
  refine ⟨reward, f, hexecute, ?_, hkept⟩
  rw [TableFilter.isFinished, hcardinality, hcursor]
  rfl

/-- The catalog of the query consists of the index of the longer column. -/
theorem forQuery_otherTableQuery {ix : ColumnIndex}
    (hix : ColumnIndex.ofColumn longerColumn = .ok ix) :
    Catalog.forQuery otherTableQuery = .ok (Catalog.empty.insert ⟨1, 0⟩ ix) := by
  have hcolumn : otherTableQuery.column? ⟨1, 0⟩ = some longerColumn := rfl
  show [(⟨1, 0⟩ : ColumnRef)].foldlM (Catalog.addColumn otherTableQuery) Catalog.empty = _
  rw [List.foldlM_cons, Catalog.addColumn, hcolumn]
  dsimp only
  rw [hix]
  rfl

/-- The table is filtered to row 4. -/
theorem filterTable_otherTableQuery {catalog : Catalog} {ix : ColumnIndex}
    (hcatalog : catalog.index? ⟨1, 0⟩ = some ix) (haccepts : ix.accepts (.int 1) = true)
    (hrep : ix.Represents longerColumn) :
    ∃ filtered, otherTableQuery.filterTable 0 catalog FilterTree.rowByRow.config (⟨1⟩ : SplitMix) =
      some filtered ∧ filtered.rows = [4] := by
  obtain ⟨reward, f, hexecute, hfinished, hrows⟩ :=
    execute_otherTableQuery hcatalog haccepts hrep
  have hstart : otherTableQuery.startRun 0 catalog FilterTree.rowByRow.config (⟨1⟩ : SplitMix) =
      ⟨FilterTree.rowByRow, ⟨1⟩, otherTableQuery.startFilter catalog 0⟩ := by
    unfold Query.startRun Query.indexedPredicates
    rw [filterIndex?_otherTableQuery hcatalog haccepts]
    rfl
  -- Row 4 takes the cursor beyond the table, so there is no second episode.
  have hunfinished : (otherTableQuery.startFilter catalog 0).isFinished = false := rfl
  obtain ⟨hdecided, hfilter⟩ := FilterTree.sample_rowByRow hexecute
  have hexhaust :=
    FilterTree.exhaust_of_first hunfinished hdecided (hfilter.symm ▸ hfinished)
  rw [← hstart] at hexhaust
  have hsome : otherTableQuery.unaryPredicates 0 ≠ [] := by decide
  refine ⟨_, Query.filterTable_eq_some hsome hexhaust, ?_⟩
  dsimp only
  rw [hfilter, hrows]

/-- Row 4 has no place in the mask of the table. -/
theorem prefilter_otherTableQuery : otherTableQuery.validate = .ok () ∧
    ∃ catalog, Catalog.forQuery otherTableQuery = .ok catalog ∧
      ∃ config : FilterConfig, config.validate = .ok () ∧
        (∃ filtered, otherTableQuery.filterTable 0 catalog config (⟨1⟩ : SplitMix) =
          some filtered ∧ filtered.rows = [4] ∧ ¬4 < otherTableQuery.cardinality 0 ∧
            filtered.toMask? (otherTableQuery.cardinality 0) = none) ∧
        prefilter otherTableQuery catalog config (fun _ => (⟨1⟩ : SplitMix)) = none := by
  obtain ⟨ix, hix, hrep⟩ := ColumnIndex.ofColumn_eq_ok (c := longerColumn) (by decide)
  have haccepts : ix.accepts (.int 1) = true := by
    obtain ⟨runs, rfl⟩ := hrep.exists_int rfl
    rfl
  have hindex : (Catalog.empty.insert ⟨1, 0⟩ ix).index? ⟨1, 0⟩ = some ix := by
    rw [Catalog.index?_insert, if_pos rfl]
  obtain ⟨filtered, hfiltered, hrows⟩ := filterTable_otherTableQuery hindex haccepts hrep
  -- The row kept is one of the longer column, and the table has no such row.
  have hmask : filtered.toMask? (otherTableQuery.cardinality 0) = none := by
    refine if_neg ?_
    rw [hrows]
    decide
  refine ⟨rfl, _, forQuery_otherTableQuery hix, FilterTree.rowByRow.config, rfl,
    ⟨filtered, hfiltered, hrows, by decide, hmask⟩, ?_⟩
  have htables : Array.range otherTableQuery.nrTables = #[0, 1] := rfl
  have hsome : (otherTableQuery.unaryPredicates 0).isEmpty = false := by decide
  -- The mask of the first table is missing, so there are no masks at all.
  rw [prefilter, htables, Array.mapM_eq_mapM_toList, List.mapM_cons, hsome]
  simp only [Bool.false_eq_true, if_false, hfiltered, Option.bind_some, hmask]
  rfl

end Engine

end AdaptiveJoin
