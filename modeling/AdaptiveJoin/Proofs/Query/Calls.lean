import Mathlib.Data.List.Sort
import AdaptiveJoin.Proofs.Comparison
import AdaptiveJoin.Proofs.Query.JoinGraph

/-!
# Queries after any calls

A query is changed by calls: additions of predicates, of which any may be rejected, and marks.
Which additions are accepted depends on the tables alone (`Addition.IsAccepted`): the columns have
to exist, and the tables have to be tables of the query below the limit.

Whatever is called and in which order, the query mirrors the accepted additions
(`Query.Mirrors`, `Query.Mirrors.afterCalls`).  `Query.calls_mirrored` says what follows for those
who read the query.
-/

namespace AdaptiveJoin

/-- A column reference names a table and one of its columns. -/
def ColumnRef.Exists (tables : Array Table) (r : ColumnRef) : Prop :=
  ∃ t ∈ tables[r.table]?, r.column < t.columns.size

instance (tables : Array Table) (r : ColumnRef) : Decidable (r.Exists tables) :=
  inferInstanceAs (Decidable (∃ t ∈ tables[r.table]?, r.column < t.columns.size))

/-- A predicate that a query is asked to take. -/
inductive Addition where
  | predicate (label : String) (tables : List Nat) (shape : Predicate.Shape) (eval : Tuple → Truth)
  | equiJoin (left right : ColumnRef)
  | columnComparison (left : ColumnRef) (op : Comparison) (right : ColumnRef)
  | constantFilter (column : ColumnRef) (op : Comparison) (value : Value)

namespace Addition

/-- The tables that are named, in any order and any number of times. -/
def tables : Addition → List Nat
  | predicate _ tables _ _ => tables
  | equiJoin left right => [left.table, right.table]
  | columnComparison left _ right => [left.table, right.table]
  | constantFilter column _ _ => [column.table]

/-- The columns that are named. -/
def columns : Addition → List ColumnRef
  | predicate .. => []
  | equiJoin left right => [left, right]
  | columnComparison left _ right => [left, right]
  | constantFilter column _ _ => [column]

/-- The predicate itself. -/
def build (tables : Array Table) : Addition → Except Rejection Predicate
  | predicate label names shape eval => .ok (.ofTables label names shape eval)
  | equiJoin left right => Predicate.compareColumns tables left .eq right
  | columnComparison left op right => Predicate.compareColumns tables left op right
  | constantFilter column op value => Predicate.compareConstant tables column op value

/-- Asks a query to take the predicate. -/
def addTo (q : Query) : Addition → Except Rejection (Query × Nat)
  | predicate label names shape eval => q.addPredicate (.ofTables label names shape eval)
  | equiJoin left right => q.addEquiJoin left right
  | columnComparison left op right => q.addColumnComparison left op right
  | constantFilter column op value => q.addConstantFilter column op value

/-- The columns exist, and the tables are tables of the query below the limit. -/
def IsAccepted (tables : Array Table) (a : Addition) : Prop :=
  (∀ r ∈ a.columns, r.Exists tables) ∧ ∀ t ∈ a.tables, t < tables.size ∧ t < maxTables

instance (tables : Array Table) (a : Addition) : Decidable (a.IsAccepted tables) :=
  inferInstanceAs (Decidable (_ ∧ _))

end Addition

/-! ### Which additions are accepted -/

section Acceptance

variable {tables : Array Table}

theorem ColumnRef.Exists.resolve_eq_ok {r : ColumnRef} (h : r.Exists tables) :
    ∃ t c, r.resolve tables = .ok (t, c) := by
  obtain ⟨t, ht, hlt⟩ := h
  refine ⟨t, t.columns[r.column], ?_⟩
  unfold ColumnRef.resolve
  rw [Option.mem_def.1 ht]
  simp only [Array.getElem?_eq_getElem hlt]

theorem ColumnRef.exists_of_column? {q : Query} {r : ColumnRef} {c : Column}
    (h : q.column? r = some c) : r.Exists q.tables := by
  obtain ⟨t, ht, hc⟩ := Option.bind_eq_some_iff.1 h
  exact ⟨t, ht, (Array.getElem?_eq_some_iff.1 hc).1⟩

namespace Addition

variable {q q' : Query} {a : Addition} {p : Predicate} {id : Nat}

/-- Columns that exist make a predicate. -/
theorem exists_build (h : ∀ r ∈ a.columns, r.Exists tables) : ∃ p, a.build tables = .ok p := by
  have hcompare {left right : ColumnRef} (op : Comparison) (hleft : left.Exists tables)
      (hright : right.Exists tables) :
      ∃ p, Predicate.compareColumns tables left op right = .ok p := by
    obtain ⟨s, b, hb⟩ := hleft.resolve_eq_ok
    obtain ⟨t, c, hc⟩ := hright.resolve_eq_ok
    obtain ⟨p, hp, -⟩ := compareColumns_of_resolve hb hc op
    exact ⟨p, hp⟩
  cases a with
  | predicate label names shape eval => exact ⟨_, rfl⟩
  | equiJoin left right =>
    exact hcompare .eq (h left (by simp [columns])) (h right (by simp [columns]))
  | columnComparison left op right =>
    exact hcompare op (h left (by simp [columns])) (h right (by simp [columns]))
  | constantFilter column op value =>
    obtain ⟨t, c, hc⟩ := (h column (by simp [columns])).resolve_eq_ok
    obtain ⟨p, hp, -⟩ := compareConstant_of_resolve hc op value
    exact ⟨p, hp⟩

/-- Only columns that exist make a predicate, and it refers to the tables that are named. -/
theorem of_build (h : a.build q.tables = .ok p) :
    (∀ r ∈ a.columns, r.Exists q.tables) ∧ ∀ t, t ∈ p.tables ↔ t ∈ a.tables := by
  have hcompare {left right : ColumnRef} {op : Comparison}
      (h : Predicate.compareColumns q.tables left op right = .ok p) :
      (∀ r ∈ [left, right], r.Exists q.tables) ∧
        ∀ t, t ∈ p.tables ↔ t ∈ [left.table, right.table] := by
    obtain ⟨label, b, c, hb, hc, rfl⟩ := Query.compareColumns_eq_ok h
    refine ⟨?_, fun t => Query.mem_tables_ofTables⟩
    simpa using ⟨ColumnRef.exists_of_column? hb, ColumnRef.exists_of_column? hc⟩
  cases a with
  | predicate label names shape eval =>
    obtain rfl := Except.ok.inj h
    exact ⟨by simp [columns], fun t => Query.mem_tables_ofTables⟩
  | equiJoin left right => exact hcompare h
  | columnComparison left op right => exact hcompare h
  | constantFilter column op value =>
    obtain ⟨label, c, hc, rfl⟩ := Query.compareConstant_eq_ok h
    refine ⟨?_, fun t => Query.mem_tables_ofTables⟩
    simpa [columns] using ColumnRef.exists_of_column? hc

theorem addTo_eq : a.addTo q = a.build q.tables >>= q.addPredicate := by
  cases a <;> rfl

/-- A predicate whose tables are tables of the query below the limit is taken. -/
theorem addPredicate_of_lt (h : ∀ t ∈ p.tables, t < q.nrTables ∧ t < maxTables) :
    ∃ q', q.addPredicate p = .ok (q', q.predicates.size) := by
  have hforeign : p.tables.find? (fun t => q.nrTables ≤ t) = none :=
    List.find?_eq_none.2 fun t ht => by simpa using (h t ht).1
  have hlimit : p.tables.find? (fun t => maxTables ≤ t) = none :=
    List.find?_eq_none.2 fun t ht => by simpa using (h t ht).2
  unfold Query.addPredicate
  rw [hforeign, hlimit]
  exact ⟨_, rfl⟩

/-- An accepted addition adds its predicate, which gets the next number. -/
theorem IsAccepted.addTo_eq_ok (h : a.IsAccepted q.tables) : ∃ p q', a.build q.tables = .ok p ∧
    q.addPredicate p = .ok (q', q.predicates.size) ∧ a.addTo q = .ok (q', q.predicates.size) := by
  obtain ⟨hcolumns, hlt⟩ := h
  obtain ⟨p, hp⟩ := exists_build hcolumns
  obtain ⟨q', hadd⟩ := addPredicate_of_lt (q := q) fun t ht => hlt t (((of_build hp).2 t).1 ht)
  refine ⟨p, q', hp, hadd, ?_⟩
  rw [addTo_eq, hp]
  exact hadd

/-- Only accepted additions add anything. -/
theorem isAccepted_of_addTo (h : a.addTo q = .ok (q', id)) : a.IsAccepted q.tables := by
  rw [addTo_eq] at h
  obtain ⟨p, hp, hadd⟩ := Query.bind_eq_ok h
  obtain ⟨hcolumns, hmem⟩ := of_build hp
  exact ⟨hcolumns, fun t ht => (Query.addPredicate_eq_ok hadd).2.2.2 t ((hmem t).2 ht)⟩

end Addition

end Acceptance

/-! ### Calls -/

namespace Query

/-- A change that a query is asked for. -/
inductive Call where
  | add (a : Addition)
  | markTemporary (table : Nat)

namespace Call

/-- The answer to a call: the number of an added predicate, nothing for a mark, or a rejection. -/
def answer (q : Query) : Call → Except Rejection (Option Nat)
  | add a => (a.addTo q).map fun r => some r.2
  | markTemporary _ => .ok none

/-- The query that a call leaves behind. -/
def next (q : Query) : Call → Query
  | add a =>
    match a.addTo q with
    | .ok (q', _) => q'
    | .error _ => q
  | markTemporary table => q.markTemporary table

/-- The addition that a call makes, if the tables allow it. -/
def accepted? (tables : Array Table) : Call → Option Addition
  | add a => if a.IsAccepted tables then some a else none
  | markTemporary _ => none

end Call

/-- The query after some calls. -/
def afterCalls (q : Query) (calls : List Call) : Query := calls.foldl Call.next q

/-- A query holds the predicates of some additions, in their order, and the join graph of these. -/
structure Mirrors (q : Query) (tables : Array Table) (additions : List Addition) : Prop where
  tables_eq : q.tables = tables
  predicates_eq : q.predicates.toList.map .ok = additions.map (·.build tables)
  hasGraph : q.HasGraph

section Mirrors

variable {q : Query} {tables : Array Table} {additions : List Addition}

theorem mirrors_ofTables (tables : Array Table) : (ofTables tables).Mirrors tables [] :=
  ⟨rfl, rfl, hasGraph_ofTables tables⟩

theorem Mirrors.length_eq (h : q.Mirrors tables additions) :
    additions.length = q.predicates.size := by
  have := congrArg List.length h.predicates_eq
  simpa using this.symm

/-- **A call adds the addition that it makes, and nothing else.** -/
theorem Mirrors.next (h : q.Mirrors tables additions) (c : Call) :
    (c.next q).Mirrors tables (additions ++ (c.accepted? tables).toList) := by
  cases c with
  | markTemporary table =>
    rw [Call.accepted?, Option.toList_none, List.append_nil]
    exact ⟨h.tables_eq, h.predicates_eq, { h.hasGraph with }⟩
  | add a =>
    by_cases haccepted : a.IsAccepted tables
    · obtain ⟨p, q', hp, hadd, hok⟩ := (h.tables_eq ▸ haccepted).addTo_eq_ok (q := q)
      obtain ⟨htables, hpredicates, -, -⟩ := addPredicate_eq_ok hadd
      rw [Call.accepted?, if_pos haccepted, Option.toList_some]
      -- Whether an addition is accepted depends on the tables, and these are still the same.
      simp only [Call.next, hok]
      refine ⟨htables.trans h.tables_eq, ?_, h.hasGraph.addPredicate hadd⟩
      rw [hpredicates, Array.toList_push, List.map_append, List.map_append, h.predicates_eq,
        List.map_singleton, List.map_singleton, ← h.tables_eq, hp]
    · rw [Call.accepted?, if_neg haccepted, Option.toList_none, List.append_nil]
      cases hadd : a.addTo q with
      | error e => simpa only [Call.next, hadd] using h
      | ok r => exact absurd (h.tables_eq ▸ Addition.isAccepted_of_addTo hadd) haccepted

/-- **After any calls a query mirrors those that are accepted.** -/
theorem Mirrors.afterCalls (h : q.Mirrors tables additions) (calls : List Call) :
    (q.afterCalls calls).Mirrors tables
      (additions ++ calls.filterMap (Call.accepted? tables)) := by
  -- The first call leaves a query that mirrors one addition more or none; the rest starts there.
  induction calls generalizing q additions with
  | nil =>
    rw [List.filterMap_nil, List.append_nil]
    exact h
  | cons c calls ih =>
    have hnext := ih (h.next c)
    rw [List.append_assoc] at hnext
    cases hc : c.accepted? tables <;> simpa [Query.afterCalls, hc] using hnext

/-! ### Reading the query -/

theorem Mirrors.getElem?_eq (h : q.Mirrors tables additions) (id : Nat) :
    q.predicates[id]?.map .ok = additions[id]?.map (·.build tables) := by
  have := congrArg (·[id]?) h.predicates_eq
  simpa using this

/-- The predicates are those of the additions, number by number. -/
theorem Mirrors.exists_predicate_iff (h : q.Mirrors tables additions) (id : Nat)
    {P : List Nat → Prop} (hP : ∀ ts us : List Nat, (∀ t, t ∈ ts ↔ t ∈ us) → (P ts ↔ P us)) :
    (∃ p, q.predicates[id]? = some p ∧ P p.tables) ↔
      ∃ a, additions[id]? = some a ∧ P a.tables := by
  have heq := h.getElem?_eq id
  cases hp : q.predicates[id]? with
  | none =>
    rw [hp, Option.map_none, eq_comm, Option.map_eq_none_iff] at heq
    simp [heq]
  | some p =>
    rw [hp, Option.map_some, eq_comm, Option.map_eq_some_iff] at heq
    obtain ⟨a, ha, hbuild⟩ := heq
    rw [← h.tables_eq] at hbuild
    simpa [ha] using hP _ _ (Addition.of_build hbuild).2

theorem Mirrors.shares_iff (h : q.Mirrors tables additions) {s t : Nat} :
    q.Shares s t ↔ ∃ a ∈ additions, s ∈ a.tables ∧ t ∈ a.tables := by
  have hnumber (id : Nat) := h.exists_predicate_iff id (P := fun ts => s ∈ ts ∧ t ∈ ts)
    fun ts us hmem => and_congr (hmem s) (hmem t)
  unfold Shares
  constructor
  · rintro ⟨p, hp, hmem⟩
    obtain ⟨id, hid⟩ := Array.getElem?_of_mem hp
    obtain ⟨a, ha, hmem⟩ := (hnumber id).1 ⟨p, hid, hmem⟩
    exact ⟨a, List.mem_of_getElem? ha, hmem⟩
  · rintro ⟨a, ha, hmem⟩
    obtain ⟨id, hid⟩ := List.getElem?_of_mem ha
    obtain ⟨p, hp, hmem⟩ := (hnumber id).2 ⟨a, hid, hmem⟩
    exact ⟨p, Array.mem_of_getElem? hp, hmem⟩

/-- The tables of a predicate are a single one iff no other one is among them. -/
theorem tables_eq_singleton_iff {p : Predicate} {t : Nat} :
    p.tables = [t] ↔ ∀ u, u ∈ p.tables ↔ u = t := by
  constructor
  · intro h u
    rw [h, List.mem_singleton]
  · intro h
    exact p.ascending.eq_of_mem_iff (List.pairwise_singleton _ t) fun u =>
      (h u).trans List.mem_singleton.symm

theorem Mirrors.mem_unaryPredicates_iff (h : q.Mirrors tables additions) {t id : Nat} :
    id ∈ q.unaryPredicates t ↔ ∃ a, additions[id]? = some a ∧ ∀ u, u ∈ a.tables ↔ u = t := by
  rw [mem_unaryPredicates, ← h.exists_predicate_iff id (P := fun ts => ∀ u, u ∈ ts ↔ u = t)]
  · simp only [tables_eq_singleton_iff]
  · exact fun ts us hmem => forall_congr' fun u => by rw [hmem u]

theorem Mirrors.contains_neighbours_iff (h : q.Mirrors tables additions) {s t : Nat} :
    (q.neighbours s).contains t = true ↔
      s ≠ t ∧ ∃ a ∈ additions, s ∈ a.tables ∧ t ∈ a.tables := by
  rw [h.hasGraph.contains_iff, h.shares_iff, ne_comm]

theorem Mirrors.isConnected_iff (h : q.Mirrors tables additions) {t : Nat} {joined : TableSet} :
    q.isConnected t joined = true ↔
      ∃ a ∈ additions, t ∈ a.tables ∧ ∃ u ∈ a.tables, u ≠ t ∧ joined.contains u = true := by
  unfold isConnected
  rw [TableSet.intersects_iff]
  simp only [h.contains_neighbours_iff]
  constructor
  · rintro ⟨u, ⟨hne, a, ha, ht, hu⟩, hjoined⟩
    exact ⟨a, ha, ht, u, hu, hne.symm, hjoined⟩
  · rintro ⟨a, ha, ht, u, hu, hne, hjoined⟩
    exact ⟨u, ⟨hne.symm, a, ha, ht, hu⟩, hjoined⟩

theorem pairwise_unaryPredicates (q : Query) (t : Nat) :
    (q.unaryPredicates t).Pairwise (· < ·) :=
  List.pairwise_lt_range.filter _

end Mirrors

/-- A rejected call changes nothing. -/
theorem Call.next_of_error {q : Query} {c : Call} {e : Rejection} (h : c.answer q = .error e) :
    c.next q = q := by
  cases c with
  | markTemporary table => exact absurd h (by simp [answer])
  | add a =>
    cases hadd : a.addTo q with
    | error e' => simp only [next, hadd]
    | ok r => exact absurd h (by simp [answer, hadd, Except.map])

/-- **Queries mirror the accepted calls.**  Whatever is called and in which order, the predicates
are those of the accepted additions.  The next addition is accepted iff the tables allow it, and
gets the next number; a rejected call changes nothing.  The neighbours of a table are the other
tables of the accepted additions that name it, a table is connected with some tables iff an accepted
addition names it and another one of them, and the predicates of one table alone are those of the
accepted additions that name no other table, in ascending order. -/
theorem calls_mirrored (tables : Array Table) (calls : List Call) :
    let q := (ofTables tables).afterCalls calls
    let accepted := calls.filterMap (Call.accepted? tables)
    q.predicates.toList.map .ok = accepted.map (·.build tables) ∧
    (∀ a : Addition, a.IsAccepted tables →
      (Call.add a).answer q = .ok (some accepted.length)) ∧
    (∀ a : Addition, ¬a.IsAccepted tables → ∃ e, (Call.add a).answer q = .error e) ∧
    (∀ (c : Call) (e : Rejection), c.answer q = .error e → c.next q = q) ∧
    (∀ s t, (q.neighbours s).contains t = true ↔
      s ≠ t ∧ ∃ a ∈ accepted, s ∈ a.tables ∧ t ∈ a.tables) ∧
    (∀ (t : Nat) (joined : TableSet), q.isConnected t joined = true ↔
      ∃ a ∈ accepted, t ∈ a.tables ∧ ∃ u ∈ a.tables, u ≠ t ∧ joined.contains u = true) ∧
    ∀ t, (q.unaryPredicates t).Pairwise (· < ·) ∧ ∀ id, id ∈ q.unaryPredicates t ↔
      ∃ a, accepted[id]? = some a ∧ ∀ u, u ∈ a.tables ↔ u = t := by
  intro q accepted
  have h : q.Mirrors tables accepted := (mirrors_ofTables tables).afterCalls calls
  refine ⟨h.predicates_eq, fun a ha => ?_, fun a ha => ?_, fun c e hc => Call.next_of_error hc,
    fun s t => h.contains_neighbours_iff, fun t joined => h.isConnected_iff,
    fun t => ⟨pairwise_unaryPredicates q t, fun id => h.mem_unaryPredicates_iff⟩⟩
  · obtain ⟨p, q', -, -, hok⟩ := (h.tables_eq ▸ ha).addTo_eq_ok (q := q)
    simp only [Call.answer, hok, Except.map, h.length_eq]
  · -- A call that is not accepted cannot have been answered with an id.
    cases hadd : a.addTo q with
    | error e => exact ⟨e, by simp only [Call.answer, hadd, Except.map]⟩
    | ok r => exact absurd (h.tables_eq ▸ Addition.isAccepted_of_addTo hadd) ha

/-- More tables than a join can have, each of one column. -/
def manyTables : Array Table :=
  Array.replicate 66 ⟨"t", #[⟨"x", .int #[some 1]⟩], by simp [commonRows]⟩

/-- A predicate over two tables, a join beyond the limit, a comparison with a column that does not
exist, a mark, and two predicates over one table. -/
def callsSample : List Call :=
  [.add (.predicate "p" [3, 1, 3] .residual fun _ => .holds), .add (.equiJoin ⟨0, 0⟩ ⟨65, 0⟩),
    .add (.columnComparison ⟨0, 0⟩ .lt ⟨2, 1⟩), .markTemporary 70,
    .add (.constantFilter ⟨2, 0⟩ .eq (.int 1)),
    .add (.predicate "q" [2, 2] .residual fun _ => .fails)]

theorem calls_mirrored_sample :
    let q := (ofTables manyTables).afterCalls callsSample
    (Addition.equiJoin ⟨0, 0⟩ ⟨1, 0⟩).IsAccepted manyTables ∧
      (Call.add (.equiJoin ⟨0, 0⟩ ⟨1, 0⟩)).answer q = .ok (some 3) ∧
      ¬(Addition.equiJoin ⟨0, 0⟩ ⟨64, 0⟩).IsAccepted manyTables ∧
      (Call.add (.equiJoin ⟨0, 0⟩ ⟨64, 0⟩)).next q = q ∧
      (q.neighbours 1).contains 3 = true ∧ q.isConnected 3 (.ofList [0, 1]) = true ∧
      2 ∈ q.unaryPredicates 2 := by
  intro q
  obtain ⟨-, haccepted, hrejected, hnext, hneighbours, hconnected, hunary⟩ :=
    calls_mirrored manyTables callsSample
  have hyes : (Addition.equiJoin ⟨0, 0⟩ ⟨1, 0⟩).IsAccepted manyTables := by decide +kernel
  have hno : ¬(Addition.equiJoin ⟨0, 0⟩ ⟨64, 0⟩).IsAccepted manyTables := by decide +kernel
  obtain ⟨e, he⟩ := hrejected _ hno
  have hlist : callsSample.filterMap (Call.accepted? manyTables) =
      [.predicate "p" [3, 1, 3] .residual fun _ => .holds, .constantFilter ⟨2, 0⟩ .eq (.int 1),
        .predicate "q" [2, 2] .residual fun _ => .fails] := rfl
  -- Three of the calls have been accepted.
  rw [hlist] at haccepted hneighbours hconnected hunary
  refine ⟨hyes, haccepted _ hyes, hno, hnext _ e he, (hneighbours 1 3).2 ⟨by decide, ?_⟩,
    (hconnected 3 _).2 ?_, ((hunary 2).2 2).2 ⟨_, rfl, by simp [Addition.tables]⟩⟩
  · exact ⟨_, List.mem_cons_self, by simp [Addition.tables]⟩
  · exact ⟨_, List.mem_cons_self, by simp [Addition.tables], 1, by simp [Addition.tables],
      by decide, by decide⟩

end Query

end AdaptiveJoin
