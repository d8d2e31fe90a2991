import AdaptiveJoin.Plan
import AdaptiveJoin.Proofs.Query.Built
import AdaptiveJoin.Proofs.RowOrder
import AdaptiveJoin.Proofs.TableSet

/-!
# What plans check

At every position of a plan, the lookup and the checks refer to the table there and to tables joined
before.

* `Planner.lookup?_eq_some`: where a lookup comes from.
* `Planner.mem_checks_iff`: which predicates are checked at a position.
* `Planner.mem_checks_iff_isLastOf`: a predicate is checked at the position of the last of its
  tables, unless a filter of the table has decided it, and nowhere else.
-/

namespace AdaptiveJoin

/-! ### Tables joined before a position -/

namespace JoinOrder

/-- The tables before a position. -/
def joined (o : JoinOrder) (pos : Nat) : TableSet := (o.toList.take pos).foldl TableSet.insert ∅

variable {o : JoinOrder} {n : Nat}

theorem IsPermutation.contains_joined_iff (h : o.IsPermutation n) (hn : n ≤ maxTables) {pos : Nat}
    (hpos : pos ≤ n) {table : Nat} :
    (o.joined pos).contains table = true ↔ ∃ p < pos, o.tableAt p = table := by
  rw [joined, TableSet.contains_foldl_insert, TableSet.contains_empty, Bool.false_or,
    decide_eq_true_eq, List.mem_take_iff_getElem]
  have hsize := h.size_eq
  constructor
  · rintro ⟨-, p, hp, rfl⟩
    have hlen : o.toList.length = o.size := by simp [toList, size]
    exact ⟨p, by omega, tableAt_eq_getElem (by omega)⟩
  · rintro ⟨p, hp, rfl⟩
    have hlt := h.tableAt_lt (show p < n by omega)
    have hlen : o.toList.length = o.size := by simp [toList, size]
    exact ⟨by omega, p, by omega, (tableAt_eq_getElem (by omega)).symm⟩

theorem IsPermutation.isEmpty_joined_iff (h : o.IsPermutation n) (hn : n ≤ maxTables) {pos : Nat}
    (hpos : pos ≤ n) : (o.joined pos).isEmpty = true ↔ pos = 0 := by
  rw [TableSet.isEmpty_iff]
  constructor
  · intro hempty
    by_contra hne
    have := (h.contains_joined_iff hn hpos).2 ⟨0, by omega, rfl⟩
    rw [hempty] at this
    exact absurd this (by decide)
  · rintro rfl table
    exact TableSet.contains_empty table

/-- One of some tables stands at a position, and all of them there or before. -/
def IsLastOf (o : JoinOrder) (tables : List Nat) (pos : Nat) : Prop :=
  o.tableAt pos ∈ tables ∧ ∀ t ∈ tables, ∃ p ≤ pos, o.tableAt p = t

theorem IsPermutation.exists_isLastOf (h : o.IsPermutation n) {tables : List Nat}
    (hne : tables ≠ []) (hlt : ∀ t ∈ tables, t < n) : ∃ pos < n, o.IsLastOf tables pos := by
  induction tables with
  | nil => exact absurd rfl hne
  | cons t ts ih =>
    obtain ⟨pos, hpos, htpos⟩ := h.exists_tableAt (hlt t List.mem_cons_self)
    rcases eq_or_ne ts [] with rfl | hts
    · refine ⟨pos, hpos, htpos ▸ List.mem_cons_self, fun t' ht' => ?_⟩
      rw [List.mem_singleton.1 ht']
      exact ⟨pos, le_refl _, htpos⟩
    · obtain ⟨pos', hpos', hmem, hall⟩ := ih hts fun t' ht' => hlt t' (List.mem_cons_of_mem _ ht')
      -- The later of the two positions is the last one.
      rcases Nat.le_total pos pos' with hle | hle
      · refine ⟨pos', hpos', List.mem_cons_of_mem _ hmem, fun t' ht' => ?_⟩
        rcases List.mem_cons.1 ht' with rfl | ht'
        · exact ⟨pos, hle, htpos⟩
        · exact hall t' ht'
      · refine ⟨pos, hpos, htpos ▸ List.mem_cons_self, fun t' ht' => ?_⟩
        rcases List.mem_cons.1 ht' with rfl | ht'
        · exact ⟨pos, le_refl _, htpos⟩
        · obtain ⟨p', hp', hpt⟩ := hall t' ht'
          exact ⟨p', by omega, hpt⟩

/-- Tables have one last position. -/
theorem IsPermutation.isLastOf_unique (h : o.IsPermutation n) {tables : List Nat} {pos pos' : Nat}
    (hpos : pos < n) (hpos' : pos' < n) (hlast : o.IsLastOf tables pos)
    (hlast' : o.IsLastOf tables pos') : pos = pos' := by
  obtain ⟨p, hp, heq⟩ := hlast.2 _ hlast'.1
  obtain ⟨p', hp', heq'⟩ := hlast'.2 _ hlast.1
  have := h.tableAt_inj (by omega) hpos' heq
  have := h.tableAt_inj (by omega) hpos heq'
  omega

/-- A position is the last of some tables if the table there is one of them and the others are
joined before. -/
theorem IsPermutation.isLastOf_iff (h : o.IsPermutation n) (hn : n ≤ maxTables) {tables : List Nat}
    {pos : Nat} (hpos : pos ≤ n) :
    o.IsLastOf tables pos ↔ o.tableAt pos ∈ tables ∧
      ∀ t ∈ tables, t = o.tableAt pos ∨ (o.joined pos).contains t = true := by
  refine and_congr_right fun _ => forall₂_congr fun t _ => ?_
  rw [h.contains_joined_iff hn hpos]
  constructor
  · rintro ⟨p, hp, rfl⟩
    rcases Nat.lt_or_eq_of_le hp with hlt | rfl
    · exact Or.inr ⟨p, hlt, rfl⟩
    · exact Or.inl rfl
  · rintro (rfl | ⟨p, hp, rfl⟩)
    · exact ⟨pos, le_refl pos, rfl⟩
    · exact ⟨p, hp.le, rfl⟩

end JoinOrder

namespace Planner

theorem getElem?_positionsFrom (p : Planner) (joined : TableSet) (tables : List Nat) (i : Nat) :
    (p.positionsFrom joined tables)[i]? =
      tables[i]?.map fun table =>
        p.position ((tables.take i).foldl TableSet.insert joined) table := by
  induction tables generalizing joined i with
  | nil => simp [positionsFrom]
  | cons table rest ih =>
    cases i with
    | zero => simp [positionsFrom]
    | succ i =>
      unfold positionsFrom
      rw [List.getElem?_cons_succ, ih]
      simp

/-- The plan at a position of an order. -/
theorem position?_plan (p : Planner) {o : JoinOrder} {pos : Nat} (h : pos < o.size) :
    (p.plan o).position? pos = some (p.position (o.joined pos) (o.tableAt pos)) := by
  have hlen : pos < o.toList.length := by simpa [JoinOrder.toList, JoinOrder.size] using h
  rw [plan, Plan.position?, List.getElem?_toArray, getElem?_positionsFrom,
    List.getElem?_eq_getElem hlen, Option.map_some, JoinOrder.tableAt_eq_getElem hlen,
    JoinOrder.joined]

/-! ### Lookups -/

variable {p : Planner} {joined : TableSet} {table id : Nat} {l : Lookup}

/-- An equi-join offers its column on the table if its other table is joined. -/
theorem joinLookup?_eq_some (h : p.joinLookup? joined table id = some l) :
    ∃ predicate left right target source index column,
      p.query.predicates[id]? = some predicate ∧ predicate.shape = .equiJoin left right ∧
      ((target, source) = (left, right) ∨ (target, source) = (right, left)) ∧
      target.table = table ∧ joined.contains source.table = true ∧
      p.catalog.index? target = some index ∧ p.query.column? source = some column ∧
      column.kind = index.kind ∧ l = ⟨id, .cell source column, index⟩ := by
  unfold joinLookup? at h
  rw [Option.bind_eq_bind, Option.bind_eq_some_iff] at h
  obtain ⟨predicate, hid, h⟩ := h
  split at h
  · rename_i left right hshape
    -- Whichever side is the target, the rest of the lookup is the same.
    have hside : ∃ target source : ColumnRef,
        ((target, source) = (left, right) ∨ (target, source) = (right, left)) ∧
        (target.table == table && joined.contains source.table) = true ∧
        ((p.catalog.index? target).bind fun index => (p.query.column? source).bind fun column =>
          if column.kind = index.kind then some ⟨id, .cell source column, index⟩ else none) =
            some l := by
      split at h
      · rename_i hleft
        exact ⟨left, right, Or.inl rfl, hleft, h⟩
      · split at h
        · rename_i hright
          exact ⟨right, left, Or.inr rfl, hright, h⟩
        · exact absurd h (by simp)
    obtain ⟨target, source, hside, htarget, h⟩ := hside
    rw [Bool.and_eq_true, beq_iff_eq] at htarget
    simp only [Option.bind_eq_some_iff] at h
    obtain ⟨index, hindex, column, hcolumn, h⟩ := h
    split at h
    · rename_i hkind
      exact ⟨predicate, left, right, target, source, index, column, hid, hshape, hside, htarget.1,
        htarget.2, hindex, hcolumn, hkind, (Option.some.inj h).symm⟩
    · exact absurd h (by simp)
  · exact absurd h (by simp)

/-- An equality with a constant offers its column. -/
theorem constantLookup?_eq_some (h : p.constantLookup? table id = some l) :
    ∃ predicate column value index,
      p.query.predicates[id]? = some predicate ∧ predicate.shape = .constantEquality column value ∧
      column.table = table ∧ p.catalog.index? column = some index ∧ index.accepts value = true ∧
      l = ⟨id, .constant value, index⟩ := by
  unfold constantLookup? at h
  rw [Option.bind_eq_bind, Option.bind_eq_some_iff] at h
  obtain ⟨predicate, hid, h⟩ := h
  split at h
  · rename_i column value hshape
    split at h
    · exact absurd h (by simp)
    · rename_i htable
      rw [Option.bind_eq_bind, Option.bind_eq_some_iff] at h
      obtain ⟨index, hindex, h⟩ := h
      split at h
      · rename_i haccepts
        exact ⟨predicate, column, value, index, hid, hshape, not_not.1 htable, hindex, haccepts,
          (Option.some.inj h).symm⟩
      · exact absurd h (by simp)
  · exact absurd h (by simp)

/-- **A lookup is offered by an equi-join with a table joined before or by an equality with a
constant, the latter not at the first position of a divided join.** -/
theorem lookup?_eq_some (h : p.lookup? joined table = some l) :
    (∃ id, p.joinLookup? joined table id = some l) ∨
      ((joined.isEmpty && p.partitioned) = false ∧ ∃ id, p.constantLookup? table id = some l) := by
  unfold lookup? at h
  rw [Option.or_eq_some_iff] at h
  rcases h with h | ⟨-, h⟩
  · split at h
    · exact absurd h (by simp)
    · obtain ⟨id, -, h⟩ := List.exists_of_findSome?_eq_some h
      exact Or.inl ⟨id, h⟩
  · split at h
    · exact absurd h (by simp)
    · rename_i hfirst
      obtain ⟨id, -, h⟩ := List.exists_of_findSome?_eq_some h
      exact Or.inr ⟨Bool.eq_false_iff.2 hfirst, id, h⟩

/-- A lookup at the first position of a join is not divided between workers. -/
theorem lookup?_of_isEmpty (h : p.lookup? joined table = some l) (hempty : joined.isEmpty = true) :
    p.partitioned = false := by
  rcases lookup?_eq_some h with ⟨id, h⟩ | ⟨h, -⟩
  · obtain ⟨_, _, _, _, source, _, _, -, -, -, -, hjoined, -⟩ := joinLookup?_eq_some h
    rw [TableSet.isEmpty_iff.1 hempty] at hjoined
    exact absurd hjoined (by decide)
  · rwa [hempty, Bool.true_and] at h

/-- A key that a lookup takes from a table joined before is of the kind of its index. -/
theorem source_of_lookup? (h : p.lookup? joined table = some l) {source : ColumnRef}
    {column : Column} (hsource : l.source = .cell source column) :
    joined.contains source.table = true ∧ p.query.column? source = some column ∧
      column.kind = l.index.kind := by
  rcases lookup?_eq_some h with ⟨id, h⟩ | ⟨-, id, h⟩
  · obtain ⟨_, _, _, _, source', _, _, -, -, -, -, hjoined, -, hcolumn, hkind, rfl⟩ :=
      joinLookup?_eq_some h
    obtain ⟨rfl, rfl⟩ := KeySource.cell.inj hsource
    exact ⟨hjoined, hcolumn, hkind⟩
  · obtain ⟨_, _, _, _, -, -, -, -, -, rfl⟩ := constantLookup?_eq_some h
    exact absurd hsource (by simp)

/-- The predicate of a lookup refers to the table and to tables joined before. -/
theorem exists_predicate (hq : ∀ q ∈ p.query.predicates, p.query.Describes q)
    (h : p.lookup? joined table = some l) :
    ∃ predicate, p.query.predicates[l.predicate]? = some predicate ∧ table ∈ predicate.tables ∧
      ∀ t ∈ predicate.tables, t = table ∨ joined.contains t = true := by
  rcases lookup?_eq_some h with ⟨id, h⟩ | ⟨-, id, h⟩
  · -- An equi-join relates the table to one that is joined already.
    obtain ⟨predicate, left, right, target, source, _, _, hid, hshape, hside, htarget, hjoined, -,
      -, -, rfl⟩ := joinLookup?_eq_some h
    have htables := ((hq predicate (Array.mem_of_getElem? hid)).equiJoin left right hshape).1
    refine ⟨predicate, hid, (htables table).2 ?_, fun t ht => ?_⟩
    · rcases hside with hside | hside <;> obtain ⟨rfl, rfl⟩ := Prod.mk.inj hside
      · exact Or.inl htarget.symm
      · exact Or.inr htarget.symm
    · rcases hside with hside | hside <;> obtain ⟨rfl, rfl⟩ := Prod.mk.inj hside
      · rcases (htables t).1 ht with rfl | rfl
        · exact Or.inl htarget
        · exact Or.inr hjoined
      · rcases (htables t).1 ht with rfl | rfl
        · exact Or.inr hjoined
        · exact Or.inl htarget
  · -- An equality with a constant has no other table.
    obtain ⟨predicate, column, value, _, hid, hshape, htable, -, -, rfl⟩ :=
      constantLookup?_eq_some h
    have htables := ((hq predicate (Array.mem_of_getElem? hid)).constantEquality column value
      hshape).1
    refine ⟨predicate, hid, ?_, fun t ht => Or.inl ?_⟩
    · rw [htables, htable]
      exact List.mem_singleton_self _
    · rw [htables] at ht
      rw [List.mem_singleton.1 ht, htable]

/-! ### Checks -/

theorem position_lookup (p : Planner) (joined : TableSet) (table : Nat) :
    (p.position joined table).lookup = p.lookup? joined table := rfl

/-- **The checks of a position are the predicate of its lookup and the predicates whose last table
is the one there.** -/
theorem mem_checks_iff (p : Planner) (joined : TableSet) (table id : Nat) :
    id ∈ (p.position joined table).checks ↔
      (∃ l, p.lookup? joined table = some l ∧ l.predicate = id) ∨
        ∃ predicate, p.query.predicates[id]? = some predicate ∧
          p.isChecked joined table predicate = true := by
  simp only [position, List.mem_append, Option.mem_toList, Option.map_eq_some_iff,
    List.mem_filter, List.mem_range, Bool.and_eq_true, bne_iff_ne, ne_eq]
  constructor
  · rintro (h | ⟨hlt, -, hchecked⟩)
    · exact Or.inl h
    · refine Or.inr ⟨p.query.predicates[id], Array.getElem?_eq_getElem hlt, ?_⟩
      simpa [Array.getElem?_eq_getElem hlt] using hchecked
  · rintro (h | ⟨predicate, hid, hchecked⟩)
    · exact Or.inl h
    · -- The predicate of the lookup comes first and is left out of the rest.
      by_cases hlookup : ∃ l, p.lookup? joined table = some l ∧ l.predicate = id
      · exact Or.inl hlookup
      · obtain ⟨hlt, -⟩ := Array.getElem?_eq_some_iff.1 hid
        refine Or.inr ⟨hlt, hlookup, ?_⟩
        simpa [hid] using hchecked

/-- A predicate is checked when the last of its tables is joined. -/
theorem isChecked_iff (hlt : ∀ q ∈ p.query.predicates, ∀ t ∈ q.tables, t < maxTables)
    {predicate : Predicate} (hp : predicate ∈ p.query.predicates) (ht : table < maxTables) :
    p.isChecked joined table predicate = true ↔
      table ∈ predicate.tables ∧ (∀ t ∈ predicate.tables, t = table ∨ joined.contains t = true) ∧
        ¬(predicate.isUnary = true ∧ p.masked.contains table = true) := by
  rw [isChecked, Bool.and_eq_true, Bool.and_eq_true, Predicate.references, List.contains_iff_mem,
    TableSet.isSubset_iff, Bool.not_eq_true', Bool.eq_false_iff, ne_eq, Bool.and_eq_true, and_assoc]
  refine and_congr_right fun _ => and_congr_left fun _ => ?_
  simp only [TableSet.contains_ofList_iff (hlt predicate hp), TableSet.contains_insert_iff ht]

section Described

variable (hq : ∀ q ∈ p.query.predicates, p.query.Describes q)
  (hlt : ∀ q ∈ p.query.predicates, ∀ t ∈ q.tables, t < maxTables)

include hq hlt

/-- The tables of a predicate that is checked at a position stand there or before. -/
theorem tables_of_mem_checks (ht : table < maxTables)
    (h : id ∈ (p.position joined table).checks) :
    ∃ predicate, p.query.predicates[id]? = some predicate ∧ table ∈ predicate.tables ∧
      ∀ t ∈ predicate.tables, t = table ∨ joined.contains t = true := by
  rcases (mem_checks_iff p joined table id).1 h with ⟨l, hl, rfl⟩ | ⟨predicate, hid, hchecked⟩
  · exact exists_predicate hq hl
  · rw [isChecked_iff hlt (Array.mem_of_getElem? hid) ht] at hchecked
    exact ⟨predicate, hid, hchecked.1, hchecked.2.1⟩

variable {o : JoinOrder} {n : Nat} (ho : o.IsPermutation n) (hn : n ≤ maxTables) {pos : Nat}
  {predicate : Predicate} (hid : p.query.predicates[id]? = some predicate)

include ho hn hid

/-- **A predicate is checked at the position of the last of its tables and nowhere else; there it
may be left out if a filter of its only table has decided it, unless it is looked up.** -/
theorem mem_checks_iff_isLastOf (hpos : pos < n) :
    id ∈ (p.position (o.joined pos) (o.tableAt pos)).checks ↔
      o.IsLastOf predicate.tables pos ∧
        (¬(predicate.isUnary = true ∧ p.masked.contains (o.tableAt pos) = true) ∨
          ∃ l, p.lookup? (o.joined pos) (o.tableAt pos) = some l ∧ l.predicate = id) := by
  have ht := ho.tableAt_lt hpos
  rw [ho.isLastOf_iff hn hpos.le]
  constructor
  · intro h
    obtain ⟨predicate', hid', hlast⟩ := tables_of_mem_checks hq hlt (by omega) h
    obtain rfl := Option.some.inj (hid'.symm.trans hid)
    refine ⟨hlast, ?_⟩
    -- What is checked is the predicate of the lookup, or one that becomes complete here.
    rcases (mem_checks_iff p _ _ id).1 h with hlookup | ⟨predicate'', hid'', hchecked⟩
    · exact Or.inr hlookup
    · obtain rfl := Option.some.inj (hid''.symm.trans hid)
      rw [isChecked_iff hlt (Array.mem_of_getElem? hid) (by omega)] at hchecked
      exact Or.inl hchecked.2.2
  · rintro ⟨⟨hmem, hall⟩, hmasked | hlookup⟩
    · refine (mem_checks_iff p _ _ id).2 (Or.inr ⟨predicate, hid, ?_⟩)
      rw [isChecked_iff hlt (Array.mem_of_getElem? hid) (by omega)]
      exact ⟨hmem, hall, hmasked⟩
    · exact (mem_checks_iff p _ _ id).2 (Or.inl hlookup)

/-- Every predicate is checked at the position of the last of its tables, unless a filter of its
only table has decided it. -/
theorem exists_mem_checks (htables : predicate.tables ≠ [])
    (hlt' : ∀ t ∈ predicate.tables, t < n) :
    ∃ pos < n, o.IsLastOf predicate.tables pos ∧
      (id ∈ (p.position (o.joined pos) (o.tableAt pos)).checks ∨
        predicate.isUnary = true ∧ p.masked.contains (o.tableAt pos) = true) := by
  obtain ⟨pos, hpos, hlast⟩ := ho.exists_isLastOf htables hlt'
  refine ⟨pos, hpos, hlast, ?_⟩
  by_cases hmasked : predicate.isUnary = true ∧ p.masked.contains (o.tableAt pos) = true
  · exact Or.inr hmasked
  · exact Or.inl ((mem_checks_iff_isLastOf hq hlt ho hn hid hpos).2 ⟨hlast, Or.inl hmasked⟩)

end Described

end Planner

end AdaptiveJoin
