import AdaptiveJoin.Engine
import AdaptiveJoin.Proofs.Episode.Acceptance
import AdaptiveJoin.Proofs.Filter.Masks
import AdaptiveJoin.Proofs.Plan.Catalogs

/-!
# Preparing a join

What a join is prepared with is what episodes rely on, and it is there for every valid configuration
and query.

* `Engine.hasExactMasks`: the masks tell on which rows all predicates hold that only their table
  decides.
* `Engine.catalog?_eq_ok`: the indexes of a valid query can be built.
-/

namespace AdaptiveJoin

/-- The answers for all members of an array. -/
theorem getElem?_of_mapM_eq_some {α β : Type} {f : α → Option β} {xs : Array α} {ys : Array β}
    (h : xs.mapM f = some ys) (i : Nat) : ys[i]? = xs[i]?.bind f := by
  have hlist : ∀ (l : List α) (l' : List β), l.mapM f = some l' → l'[i]? = l[i]?.bind f := by
    intro l
    induction l generalizing i with
    | nil =>
      intro l' h
      obtain rfl := Option.some.inj h
      rfl
    | cons x rest ih =>
      intro l' h
      rw [List.mapM_cons] at h
      obtain ⟨y, hy, h⟩ := Option.bind_eq_some_iff.1 h
      obtain ⟨rest', hrest, h⟩ := Option.bind_eq_some_iff.1 h
      obtain rfl := Option.some.inj h
      cases i with
      | zero => exact hy.symm
      | succ i => exact ih i rest' hrest
  rw [← Array.getElem?_toList, ← Array.getElem?_toList]
  apply hlist
  rw [← Array.toList_mapM, h]
  rfl

/-- There are answers for an array if there is one for each of its members. -/
theorem exists_mapM_eq_some {α β : Type} {f : α → Option β} {xs : Array α}
    (h : ∀ x ∈ xs, ∃ y, f x = some y) : ∃ ys, xs.mapM f = some ys := by
  have hlist : ∀ l : List α, (∀ x ∈ l, ∃ y, f x = some y) → ∃ l', l.mapM f = some l' := by
    intro l h
    induction l with
    | nil => exact ⟨[], rfl⟩
    | cons x rest ih =>
      obtain ⟨y, hy⟩ := h x List.mem_cons_self
      obtain ⟨rest', hrest⟩ := ih fun x hx => h x (List.mem_cons_of_mem _ hx)
      exact ⟨y :: rest', by rw [List.mapM_cons, hy, hrest]; rfl⟩
  obtain ⟨ys, hys⟩ := hlist xs.toList fun x hx => h x (Array.mem_toList_iff.1 hx)
  rw [← Array.toList_mapM] at hys
  obtain ⟨ys', hys', -⟩ := Option.map_eq_some_iff.1 hys
  exact ⟨ys', hys'⟩

namespace Engine

variable {γ : Type} [RandomSource γ] {q : Query} {catalog : Catalog} {config : Config}
  {source : Nat → γ} {masks : Array (Option RowMask)}

/-- The mask of a table is made from its filtered rows. -/
theorem exists_filterTable_of_prefilter {config : FilterConfig}
    (h : prefilter q catalog config source = some masks) {table : Nat} {mask : RowMask}
    (ht : table < q.nrTables) (hmask : masks[table]?.join = some mask) :
    ∃ filtered, q.filterTable table catalog config (source table) = some filtered ∧
      mask = filtered.toMask (q.cardinality table) := by
  have hget := getElem?_of_mapM_eq_some h table
  rw [Array.getElem?_range, if_pos ht, Option.bind_some] at hget
  rw [Option.join_eq_some_iff.1 hmask] at hget
  split at hget
  · exact absurd (Option.some.inj hget) (by simp)
  · obtain ⟨filtered, hfiltered, hget⟩ := Option.bind_eq_some_iff.1 hget.symm
    obtain ⟨mask', hmask', heq⟩ := Option.map_eq_some_iff.1 hget
    obtain rfl := Option.some.inj heq
    exact ⟨filtered, hfiltered, (FilteredTable.eq_toMask_of_toMask? hmask').2⟩

/-- **The masks that a join is prepared with are exact**, whether its tables are filtered or not. -/
theorem hasExactMasks (hbuilt : q.Built) (hsmall : q.HasSmallTables) (hexact : q.HasExactConstants)
    (hcatalog : catalog.IsBuiltFor q)
    (hfits : ∀ table < q.nrTables, config.filter.Fits (q.cardinality table))
    (h : masks? config q catalog source = some masks) :
    (Task.ofQuery q masks config).HasExactMasks := by
  intro table mask hmask tuple htuple
  obtain ⟨ht, hmask⟩ := Task.mask?_ofQuery hmask
  unfold masks? at h
  split at h
  · obtain ⟨filtered, hfiltered, rfl⟩ := exists_filterTable_of_prefilter h ht hmask
    -- The mask holds the rows that the filter keeps, and these satisfy all predicates of the table.
    have hrows := (hbuilt.suitsFilter hsmall hexact ht).rows_filterTable hcatalog (hfits table ht)
      hfiltered
    have hlt := htuple.2 table ht
    rw [FilteredTable.getElem?_toMask, decide_eq_true_eq, hrows, List.mem_filter, List.mem_range,
      Query.keeps, List.all_eq_true]
    constructor
    · rintro ⟨⟨-, hkept⟩, -⟩ id hid
      -- A predicate of one table sees no difference between a row and a tuple that has it.
      show q.holds id tuple = true
      rw [Query.holds_rowTuple hbuilt.explains hid htuple.1]
      exact hkept id hid
    · intro hkept
      refine ⟨⟨hlt, fun id hid => ?_⟩, hlt⟩
      rw [← Query.holds_rowTuple hbuilt.explains hid htuple.1]
      exact hkept id hid
  · -- Without a filter there is no mask.
    obtain rfl := Option.some.inj h
    simp [ht] at hmask

/-- **The indexes of a valid query can be built** for a valid configuration. -/
theorem catalog?_eq_ok (hconfig : config.validate = .ok ()) (hvalid : q.validate = .ok ())
    (hsmall : q.HasSmallTables) :
    ∃ catalog, Catalog.forQuery q = .ok catalog ∧ catalog? config q = .ok catalog := by
  obtain ⟨catalog, hcatalog⟩ := Catalog.forQuery_eq_ok hsmall
  refine ⟨catalog, hcatalog, ?_⟩
  unfold catalog?
  rw [hconfig, hvalid, hcatalog]
  rfl

end Engine

end AdaptiveJoin
