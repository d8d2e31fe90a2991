import AdaptiveJoin.Proofs.Plan.Lookups

/-!
# Catalogs that are built for a query

A catalog is filled column by column, and every index that it holds afterwards is that of the column
that it is registered for.

* `Catalog.isBuiltFor_forQuery`: the catalog holds the indexes of the columns of the query.
* `Catalog.exists_index?_forQuery`: it holds an index of every column whose equality an index could
  answer.
* `Catalog.forQuery_eq_ok`: it can be built if the tables are small.
-/

namespace AdaptiveJoin

namespace Catalog

variable {q : Query} {catalog : Catalog}

theorem index?_insert (catalog : Catalog) (r r' : ColumnRef) (ix : ColumnIndex) :
    (catalog.insert r ix).index? r' = if r = r' then some ix else catalog.index? r' := by
  simp [index?, insert, Std.HashMap.getElem?_insert]

/-- Registering the index of a column. -/
theorem IsBuiltFor.insert (h : catalog.IsBuiltFor q) {r : ColumnRef} {column : Column}
    (hcolumn : q.column? r = some column) {ix : ColumnIndex}
    (hix : ColumnIndex.ofColumn column = .ok ix) : (catalog.insert r ix).IsBuiltFor q := by
  intro r' ix' hindex
  rw [index?_insert] at hindex
  split at hindex
  · rename_i heq
    obtain rfl := Option.some.inj hindex
    exact ⟨column, heq ▸ hcolumn, hix⟩
  · exact h r' ix' hindex

/-- Adding the index of a column. -/
theorem IsBuiltFor.addColumn (h : catalog.IsBuiltFor q) {r : ColumnRef} {catalog' : Catalog}
    (hadd : Catalog.addColumn q catalog r = .ok catalog') : catalog'.IsBuiltFor q := by
  unfold Catalog.addColumn at hadd
  split at hadd
  · rename_i column hcolumn
    cases hix : ColumnIndex.ofColumn column with
    | error e =>
      rw [hix] at hadd
      exact absurd hadd (by simp [Except.map])
    | ok ix =>
      rw [hix] at hadd
      obtain rfl := Except.ok.inj hadd
      exact h.insert hcolumn hix
  · obtain rfl := Except.ok.inj hadd
    exact h

theorem IsBuiltFor.foldlM (h : catalog.IsBuiltFor q) {columns : List ColumnRef} {catalog' : Catalog}
    (hfold : columns.foldlM (Catalog.addColumn q) catalog = .ok catalog') :
    catalog'.IsBuiltFor q := by
  induction columns generalizing catalog with
  | nil =>
    obtain rfl := Except.ok.inj hfold
    exact h
  | cons r rest ih =>
    rw [List.foldlM_cons] at hfold
    obtain ⟨next, hadd, hfold⟩ := Query.bind_eq_ok hfold
    exact ih (h.addColumn hadd) hfold

/-- **The catalog of a query holds the indexes of its columns.** -/
theorem isBuiltFor_forQuery (h : Catalog.forQuery q = .ok catalog) : catalog.IsBuiltFor q :=
  IsBuiltFor.foldlM (isBuiltFor_empty q) h

/-- A column that is added has an index, and so have the earlier ones. -/
theorem exists_index?_addColumn {r r' : ColumnRef} {catalog' : Catalog}
    (hadd : Catalog.addColumn q catalog r = .ok catalog')
    (h : (r = r' ∧ ∃ column, q.column? r' = some column) ∨ ∃ ix, catalog.index? r' = some ix) :
    ∃ ix, catalog'.index? r' = some ix := by
  unfold Catalog.addColumn at hadd
  split at hadd
  · rename_i column hcolumn
    cases hix : ColumnIndex.ofColumn column with
    | error e =>
      rw [hix] at hadd
      exact absurd hadd (by simp [Except.map])
    | ok ix =>
      rw [hix] at hadd
      obtain rfl := Except.ok.inj hadd
      rw [index?_insert]
      split
      · exact ⟨ix, rfl⟩
      · rename_i hne
        exact h.resolve_left fun h => hne h.1
  · rename_i hnone
    obtain rfl := Except.ok.inj hadd
    -- Without the column the catalog stays as it is.
    refine h.resolve_left ?_
    rintro ⟨rfl, column, hcolumn⟩
    exact absurd (hnone.symm.trans hcolumn) nofun

theorem exists_index?_foldlM {columns : List ColumnRef} {catalog' : Catalog} {r : ColumnRef}
    (hfold : columns.foldlM (Catalog.addColumn q) catalog = .ok catalog')
    (h : (r ∈ columns ∧ ∃ column, q.column? r = some column) ∨ ∃ ix, catalog.index? r = some ix) :
    ∃ ix, catalog'.index? r = some ix := by
  induction columns generalizing catalog with
  | nil =>
    obtain rfl := Except.ok.inj hfold
    exact h.resolve_left fun h => List.not_mem_nil h.1
  | cons first rest ih =>
    rw [List.foldlM_cons] at hfold
    obtain ⟨next, hadd, hfold⟩ := Query.bind_eq_ok hfold
    refine ih hfold ?_
    -- The column is the next one, comes later, or has an index already.
    rcases h with ⟨hmem, hcolumn⟩ | hindex
    · rcases List.mem_cons.1 hmem with rfl | hmem
      · exact Or.inr (exists_index?_addColumn hadd (Or.inl ⟨rfl, hcolumn⟩))
      · exact Or.inl ⟨hmem, hcolumn⟩
    · exact Or.inr (exists_index?_addColumn hadd (Or.inr hindex))

/-- **The catalog of a query has an index of every column whose equality an index could answer.** -/
theorem exists_index?_forQuery (h : Catalog.forQuery q = .ok catalog) {p : Predicate}
    (hp : p ∈ q.predicates) {r : ColumnRef} (hr : r ∈ p.shape.columns)
    (hcolumn : ∃ column, q.column? r = some column) : ∃ ix, catalog.index? r = some ix := by
  refine exists_index?_foldlM h (Or.inl ⟨?_, hcolumn⟩)
  rw [List.mem_eraseDups, List.mem_flatMap]
  exact ⟨p, Array.mem_toList_iff.2 hp, hr⟩

theorem addColumn_eq_ok (hsmall : q.HasSmallTables) (catalog : Catalog) (r : ColumnRef) :
    ∃ catalog', Catalog.addColumn q catalog r = .ok catalog' := by
  unfold Catalog.addColumn
  split
  · rename_i column hcolumn
    have hsize := Query.size_eq_cardinality hcolumn
    obtain ⟨ix, hix, -⟩ := ColumnIndex.ofColumn_eq_ok (hsize ▸ hsmall.cardinality_lt r.table)
    rw [hix]
    exact ⟨_, rfl⟩
  · exact ⟨_, rfl⟩

/-- **The catalog of a query of small tables can be built.** -/
theorem forQuery_eq_ok (hsmall : q.HasSmallTables) :
    ∃ catalog, Catalog.forQuery q = .ok catalog := by
  unfold Catalog.forQuery Catalog.ofColumns
  generalize (q.predicates.toList.flatMap fun p => p.shape.columns).eraseDups = columns
  generalize Catalog.empty = catalog
  induction columns generalizing catalog with
  | nil => exact ⟨catalog, rfl⟩
  | cons r rest ih =>
    obtain ⟨next, hnext⟩ := addColumn_eq_ok hsmall catalog r
    rw [List.foldlM_cons, hnext]
    exact ih next

/-! ### The catalog of the sample query -/

def sample : Catalog := (forQuery .sample).toOption.getD empty

theorem forQuery_sample : forQuery .sample = .ok sample := by
  obtain ⟨catalog, h⟩ := forQuery_eq_ok Query.hasSmallTables_sample
  rw [sample, h]
  rfl

theorem isBuiltFor_sample : sample.IsBuiltFor .sample := isBuiltFor_forQuery forQuery_sample

end Catalog

end AdaptiveJoin
