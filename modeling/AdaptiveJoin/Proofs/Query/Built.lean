import Mathlib.Algebra.Ring.Nat
import AdaptiveJoin.Query.NestedLoop
import AdaptiveJoin.Query.Validity

/-!
# Queries that are built predicate by predicate

A predicate that is made for a query (`Query.Makes`) means what its shape says
(`Query.Makes.describes`): an equi-join compares its two columns, an equality with a constant its
column.

`Query.Built` describes the queries that are put together from tables, comparisons and predicates
of one's own, the latter looking at the rows of their tables only.  In such a query no predicate
looks beyond its tables either (`Query.Explains`, `Query.Built.explains`).
-/

namespace AdaptiveJoin

/-- A predicate looks at the rows of its tables only, in tuples of `n` rows. -/
def Predicate.IsLocal (p : Predicate) (n : Nat) : Prop :=
  ∀ a b : Tuple, a.size = n → b.size = n → (∀ t ∈ p.tables, a.row t = b.row t) →
    p.eval a = p.eval b

namespace Query

/-- The queries that are built from tables by adding predicates one at a time. -/
inductive Built : Query → Prop
  | ofTables (tables : Array Table) : Built (.ofTables tables)
  | addEquiJoin {q q' : Query} {left right : ColumnRef} {id : Nat} (h : Built q)
      (hadd : q.addEquiJoin left right = .ok (q', id)) : Built q'
  | addColumnComparison {q q' : Query} {left right : ColumnRef} {op : Comparison} {id : Nat}
      (h : Built q) (hadd : q.addColumnComparison left op right = .ok (q', id)) : Built q'
  | addConstantFilter {q q' : Query} {column : ColumnRef} {op : Comparison} {value : Value}
      {id : Nat} (h : Built q) (hadd : q.addConstantFilter column op value = .ok (q', id)) :
      Built q'
  | addCustom {q q' : Query} {label : String} {tables : List Nat} {eval : Tuple → Truth} {id : Nat}
      (h : Built q) (hlocal : (Predicate.custom label tables eval).IsLocal q.nrTables)
      (hadd : q.addPredicate (.custom label tables eval) = .ok (q', id)) : Built q'
  | markTemporary {q : Query} (table : Nat) (h : Built q) : Built (q.markTemporary table)

/-- No integer column is equated with a double constant. -/
def HasExactConstants (q : Query) : Prop :=
  ∀ p ∈ q.predicates, ∀ column value c, p.shape = .constantEquality column value →
    q.column? column = some c → c.kind = .int → value.kind ≠ .double

/-- All tables have fewer than `2 ^ 31` rows. -/
def HasSmallTables (q : Query) : Prop := ∀ t ∈ q.tables, t.cardinality < 2 ^ 31

/-! ### What predicates mean -/

/-- The predicates that are made for a query: comparisons of its columns and predicates of one's
own. -/
inductive Makes (q : Query) : Predicate → Prop
  | compareColumns {p : Predicate} {left right : ColumnRef} {op : Comparison}
      (h : Predicate.compareColumns q.tables left op right = .ok p) : q.Makes p
  | compareConstant {p : Predicate} {column : ColumnRef} {op : Comparison} {value : Value}
      (h : Predicate.compareConstant q.tables column op value = .ok p) : q.Makes p
  | custom (label : String) (tables : List Nat) (eval : Tuple → Truth) :
      q.Makes (.custom label tables eval)

/-- A predicate means what its shape says. -/
structure Describes (q : Query) (p : Predicate) : Prop where
  equiJoin : ∀ left right, p.shape = .equiJoin left right →
    (∀ t, t ∈ p.tables ↔ t = left.table ∨ t = right.table) ∧
      ∃ a b, q.column? left = some a ∧ q.column? right = some b ∧ ∀ tuple : Tuple,
        p.eval tuple =
          Comparison.eq.truth (a.compareCells (tuple.row left.table) b (tuple.row right.table))
  constantEquality : ∀ column value, p.shape = .constantEquality column value →
    p.tables = [column.table] ∧
      ∃ c, q.column? column = some c ∧ ∀ tuple : Tuple,
        p.eval tuple = Comparison.eq.truth (c.compareValue (tuple.row column.table) value)

/-- A predicate looks at its tables only, and means what its shape says. -/
structure Explains (q : Query) (p : Predicate) : Prop extends q.Describes p where
  isLocal : p.IsLocal q.nrTables
  tables_lt : ∀ t ∈ p.tables, t < q.nrTables ∧ t < maxTables

/-- A predicate is made for the tables of the query. -/
theorem Makes.congr {q q' : Query} {p : Predicate} (h : q.Makes p)
    (htables : q'.tables = q.tables) : q'.Makes p := by
  cases h with
  | compareColumns h => exact .compareColumns (htables ▸ h)
  | compareConstant h => exact .compareConstant (htables ▸ h)
  | custom label tables eval => exact .custom label tables eval

/-- What an accepted predicate leaves of the query, and what is known of the predicate. -/
theorem addPredicate_eq_ok {q q' : Query} {p : Predicate} {id : Nat}
    (h : q.addPredicate p = .ok (q', id)) :
    q'.tables = q.tables ∧ q'.predicates = q.predicates.push p ∧ id = q.predicates.size ∧
      ∀ t ∈ p.tables, t < q.nrTables ∧ t < maxTables := by
  unfold addPredicate at h
  split at h
  · exact absurd h (by simp)
  · rename_i hforeign
    split at h
    · exact absurd h (by simp)
    · rename_i hlimit
      obtain ⟨rfl, rfl⟩ := Prod.mk.inj (Except.ok.inj h)
      refine ⟨rfl, rfl, rfl, fun t ht => ?_⟩
      have h1 := List.find?_eq_none.1 hforeign t ht
      have h2 := List.find?_eq_none.1 hlimit t ht
      simp only [decide_eq_true_eq] at h1 h2
      omega

theorem resolve_eq_ok {q : Query} {r : ColumnRef} {t : Table} {c : Column}
    (h : r.resolve q.tables = .ok (t, c)) : q.column? r = some c := by
  unfold ColumnRef.resolve at h
  split at h
  · exact absurd h (by simp)
  · rename_i t' ht
    split at h
    · exact absurd h (by simp)
    · rename_i c' hc
      obtain ⟨rfl, rfl⟩ := Prod.mk.inj (Except.ok.inj h)
      unfold column?
      rw [ht, Option.bind_some, hc]

theorem mem_tables_ofTables {label : String} {tables : List Nat} {shape : Predicate.Shape}
    {eval : Tuple → Truth} {t : Nat} :
    t ∈ (Predicate.ofTables label tables shape eval).tables ↔ t ∈ tables :=
  mem_sortDistinct

theorem mem_unaryPredicates {q : Query} {table id : Nat} : id ∈ q.unaryPredicates table ↔
    ∃ p, q.predicates[id]? = some p ∧ p.tables = [table] := by
  unfold unaryPredicates
  rw [List.mem_filter, List.mem_range]
  constructor
  · rintro ⟨hlt, h⟩
    rw [Array.getElem?_eq_getElem hlt] at h
    exact ⟨_, Array.getElem?_eq_getElem hlt, by simpa using h⟩
  · rintro ⟨p, hp, htables⟩
    exact ⟨(Array.getElem?_eq_some_iff.1 hp).1, by simp [hp, htables]⟩

variable {q : Query} {p : Predicate}

/-- What a comparison of columns is. -/
theorem compareColumns_eq_ok {left right : ColumnRef} {op : Comparison}
    (h : Predicate.compareColumns q.tables left op right = .ok p) :
    ∃ label a b, q.column? left = some a ∧ q.column? right = some b ∧
      p = .ofTables label [left.table, right.table]
        (if op = .eq ∧ left.table ≠ right.table then .equiJoin left right else .residual)
        fun tuple =>
          op.truth (a.compareCells (tuple.row left.table) b (tuple.row right.table)) := by
  unfold Predicate.compareColumns at h
  cases hl : left.resolve q.tables with
  | error e => rw [hl] at h; exact absurd h (by simp [bind, Except.bind])
  | ok a =>
    cases hr : right.resolve q.tables with
    | error e => rw [hl, hr] at h; exact absurd h (by simp [bind, Except.bind])
    | ok b =>
      rw [hl, hr] at h
      exact ⟨_, a.2, b.2, resolve_eq_ok hl, resolve_eq_ok hr, (Except.ok.inj h).symm⟩

/-- What a comparison with a constant is. -/
theorem compareConstant_eq_ok {column : ColumnRef} {op : Comparison} {value : Value}
    (h : Predicate.compareConstant q.tables column op value = .ok p) :
    ∃ label c, q.column? column = some c ∧
      p = .ofTables label [column.table]
        (if op = .eq then .constantEquality column value else .residual)
        fun tuple => op.truth (c.compareValue (tuple.row column.table) value) := by
  unfold Predicate.compareConstant at h
  cases hc : column.resolve q.tables with
  | error e => rw [hc] at h; exact absurd h (by simp [bind, Except.bind])
  | ok a =>
    rw [hc] at h
    exact ⟨_, a.2, resolve_eq_ok hc, (Except.ok.inj h).symm⟩

/-- **A predicate that is made for a query means what its shape says.** -/
theorem Makes.describes (h : q.Makes p) : q.Describes p := by
  cases h with
  | compareColumns h =>
    obtain ⟨label, a, b, ha, hb, rfl⟩ := compareColumns_eq_ok h
    refine ⟨fun left' right' hs => ?_, fun column value hs => ?_⟩
    · simp only [Predicate.ofTables] at hs
      split at hs
      · -- Only equalities of two tables have the shape of an equi-join.
        rename_i hop
        obtain ⟨rfl, rfl⟩ := Predicate.Shape.equiJoin.inj hs
        refine ⟨fun t => ?_, a, b, ha, hb, fun tuple => ?_⟩
        · rw [mem_tables_ofTables]
          simp
        · rw [← hop.1]
          rfl
      · exact absurd hs (by simp)
    · simp only [Predicate.ofTables] at hs
      split at hs <;> exact absurd hs (by simp)
  | compareConstant h =>
    obtain ⟨label, c, hc, rfl⟩ := compareConstant_eq_ok h
    refine ⟨fun left right hs => ?_, fun column' value' hs => ?_⟩
    · simp only [Predicate.ofTables] at hs
      split at hs <;> exact absurd hs (by simp)
    · simp only [Predicate.ofTables] at hs
      split at hs
      · -- Only equalities have the shape of one with a constant.
        rename_i hop
        obtain ⟨rfl, rfl⟩ := Predicate.Shape.constantEquality.inj hs
        refine ⟨rfl, c, hc, fun tuple => ?_⟩
        rw [← hop]
        rfl
      · exact absurd hs (by simp)
  | custom label tables eval =>
    exact ⟨fun left right hs => absurd hs (by simp [Predicate.custom, Predicate.ofTables]),
      fun column value hs => absurd hs (by simp [Predicate.custom, Predicate.ofTables])⟩

/-- A comparison of columns looks at the rows of their tables. -/
theorem isLocal_compareColumns {left right : ColumnRef} {op : Comparison} {n : Nat}
    (h : Predicate.compareColumns q.tables left op right = .ok p) : p.IsLocal n := by
  obtain ⟨label, c, c', -, -, rfl⟩ := compareColumns_eq_ok h
  intro a b _ _ hrow
  have hleft := hrow left.table (mem_tables_ofTables.2 (by simp))
  have hright := hrow right.table (mem_tables_ofTables.2 (by simp))
  simp only [Predicate.ofTables, hleft, hright]

/-- A comparison with a constant looks at the row of the table. -/
theorem isLocal_compareConstant {column : ColumnRef} {op : Comparison} {value : Value} {n : Nat}
    (h : Predicate.compareConstant q.tables column op value = .ok p) : p.IsLocal n := by
  obtain ⟨label, c, -, rfl⟩ := compareConstant_eq_ok h
  intro a b _ _ hrow
  have hcolumn := hrow column.table (mem_tables_ofTables.2 (by simp))
  simp only [Predicate.ofTables, hcolumn]

theorem bind_eq_ok {ε α β : Type} {x : Except ε α} {f : α → Except ε β} {b : β}
    (h : (x >>= f) = .ok b) : ∃ a, x = .ok a ∧ f a = .ok b := by
  cases x with
  | error e => exact absurd h (by simp [bind, Except.bind])
  | ok a => exact ⟨a, rfl, h⟩

/-- What is known of the predicates is kept when one is added that looks at its tables only. -/
theorem makes_of_addPredicate {q' : Query} {id : Nat}
    (hadd : q.addPredicate p = .ok (q', id)) (hp : q.Makes p) (hlocal : p.IsLocal q.nrTables)
    (h : ∀ p ∈ q.predicates, q.Makes p ∧ p.IsLocal q.nrTables ∧
      ∀ t ∈ p.tables, t < q.nrTables ∧ t < maxTables) :
    ∀ p ∈ q'.predicates, q'.Makes p ∧ p.IsLocal q'.nrTables ∧
      ∀ t ∈ p.tables, t < q'.nrTables ∧ t < maxTables := by
  obtain ⟨htables, hpredicates, -, hlt⟩ := addPredicate_eq_ok hadd
  have hn : q'.nrTables = q.nrTables := by rw [nrTables, nrTables, htables]
  intro p' hp'
  rw [hpredicates, Array.mem_push] at hp'
  rw [hn]
  rcases hp' with hp' | rfl
  · exact ⟨(h p' hp').1.congr htables, (h p' hp').2⟩
  · exact ⟨hp.congr htables, hlocal, hlt⟩

/-- The predicates of a built query are made for it, and look at their tables only. -/
theorem Built.makes (h : q.Built) : ∀ p ∈ q.predicates,
    q.Makes p ∧ p.IsLocal q.nrTables ∧ ∀ t ∈ p.tables, t < q.nrTables ∧ t < maxTables := by
  induction h with
  | ofTables tables => exact fun p hp => absurd hp (by simp [Query.ofTables])
  | addEquiJoin h hadd ih =>
    obtain ⟨p, hp, hadd⟩ := bind_eq_ok hadd
    exact makes_of_addPredicate hadd (.compareColumns hp) (isLocal_compareColumns hp) ih
  | addColumnComparison h hadd ih =>
    obtain ⟨p, hp, hadd⟩ := bind_eq_ok hadd
    exact makes_of_addPredicate hadd (.compareColumns hp) (isLocal_compareColumns hp) ih
  | addConstantFilter h hadd ih =>
    obtain ⟨p, hp, hadd⟩ := bind_eq_ok hadd
    exact makes_of_addPredicate hadd (.compareConstant hp) (isLocal_compareConstant hp) ih
  | addCustom h hlocal hadd ih => exact makes_of_addPredicate hadd (.custom _ _ _) hlocal ih
  | markTemporary table h ih => exact fun p hp => ⟨(ih p hp).1.congr rfl, (ih p hp).2⟩

/-- **The predicates of a built query look at their tables only and mean what their shapes say.** -/
theorem Built.explains (h : q.Built) : ∀ p ∈ q.predicates, q.Explains p := fun p hp =>
  have ⟨hmakes, hlocal, hlt⟩ := h.makes p hp
  ⟨hmakes.describes, hlocal, hlt⟩

/-! ### Valid queries -/

theorem size_eq_cardinality {q : Query} {r : ColumnRef} {c : Column} (h : q.column? r = some c) :
    c.size = q.cardinality r.table := by
  unfold column? at h
  rw [Option.bind_eq_some_iff] at h
  obtain ⟨t, ht, hc⟩ := h
  unfold cardinality
  rw [ht, Option.map_some, Option.getD_some, Table.cardinality]
  exact t.uniform c (Array.mem_of_getElem? hc)

/-- What is known of a query that can be executed. -/
structure IsValid (q : Query) : Prop where
  nrTables_pos : 0 < q.nrTables
  nrTables_le : q.nrTables ≤ maxTables
  cardinality_lt : ∀ table, q.cardinality table < rowLimit
  tables_ne_nil : ∀ p ∈ q.predicates, p.tables ≠ []
  tables_lt : ∀ p ∈ q.predicates, ∀ t ∈ p.tables, t < q.nrTables

theorem isValid_of_validate {q : Query} (h : q.validate = .ok ()) : q.IsValid := by
  unfold validate at h
  split at h
  · exact absurd h (by simp)
  split at h
  · exact absurd h (by simp)
  split at h
  · exact absurd h (by simp)
  -- None of the checks has found a fault.
  rename_i hpos hle hlarge
  split at h
  · exact absurd h (by simp)
  rename_i hfault
  have hnone {p : Predicate} (hp : p ∈ q.predicates) : q.predicateFault? p = none :=
    Array.findSome?_eq_none_iff.1 hfault p hp
  refine ⟨by omega, by omega, fun table => ?_, fun p hp hnil => ?_, fun p hp t ht => ?_⟩
  · unfold cardinality
    cases ht : q.tables[table]? with
    | none => simp [rowLimit]
    | some t =>
      have := Array.find?_eq_none.1 hlarge t (Array.mem_of_getElem? ht)
      simpa using this
  · have := hnone hp
    simp [predicateFault?, hnil] at this
  · have := hnone hp
    unfold predicateFault? at this
    split at this
    · exact absurd this (by simp)
    split at this
    · exact absurd this (by simp)
    · rename_i hfind
      have := List.find?_eq_none.1 hfind t ht
      rwa [decide_eq_true_eq, not_le] at this

/-! ### A sample query -/

/-- The column of the first table of the sample query. -/
def sampleLeft : Column := ⟨"id", .int #[some 1, some 1, some 2, some 1, some 2]⟩

/-- The column of the second table of the sample query. -/
def sampleRight : Column := ⟨"id", .int #[some 1, some 2, some 1]⟩

/-- The query that joins rows of two tables with the same number, where the row of the first table
has a certain number and is one of the first. -/
def sample : Query :=
  { ofTables #[⟨"a", #[sampleLeft], by simp [commonRows]⟩,
      ⟨"b", #[sampleRight], by simp [commonRows]⟩] with
    predicates := #[
      .ofTables "a.id = b.id" [0, 1] (.equiJoin ⟨0, 0⟩ ⟨1, 0⟩) fun tuple =>
        Comparison.eq.truth (sampleLeft.compareCells (tuple.row 0) sampleRight (tuple.row 1)),
      .ofTables "a.id = 1" [0] (.constantEquality ⟨0, 0⟩ (.int 1)) fun tuple =>
        Comparison.eq.truth (sampleLeft.compareValue (tuple.row 0) (.int 1)),
      .custom "first rows" [0] fun tuple => if tuple.row 0 < 3 then .holds else .fails]
    graph := connect (Array.replicate 2 ∅) [0, 1] }

theorem built_sample : sample.Built := by
  have hjoin : (ofTables sample.tables).addEquiJoin ⟨0, 0⟩ ⟨1, 0⟩ =
      .ok ({ sample with predicates := sample.predicates.take 1 }, 0) := rfl
  have hconstant : Query.addConstantFilter { sample with predicates := sample.predicates.take 1 }
      ⟨0, 0⟩ .eq (.int 1) = .ok ({ sample with predicates := sample.predicates.take 2 }, 1) := rfl
  have hcustom : Query.addPredicate { sample with predicates := sample.predicates.take 2 }
      (.custom "first rows" [0] fun tuple => if tuple.row 0 < 3 then .holds else .fails) =
        .ok (sample, 2) := rfl
  refine .addCustom (.addConstantFilter (.addEquiJoin (.ofTables sample.tables) hjoin) hconstant)
    (fun a b _ _ hrow => ?_) hcustom
  have hrow := hrow 0 (by decide)
  simp only [Predicate.custom, Predicate.ofTables, hrow]

theorem validate_sample : sample.validate = .ok () := rfl

theorem hasSmallTables_sample : sample.HasSmallTables := by
  unfold HasSmallTables
  decide

theorem hasExactConstants_sample : sample.HasExactConstants := by
  intro p hp column value c hshape _ _
  have hp : p = sample.predicates[0] ∨ p = sample.predicates[1] ∨ p = sample.predicates[2] := by
    simpa [sample] using hp
  rcases hp with rfl | rfl | rfl
  · exact absurd hshape nofun
  · -- The column is equated with an integer.
    obtain ⟨-, rfl⟩ := Predicate.Shape.constantEquality.inj hshape
    decide
  · exact absurd hshape nofun

theorem nestedLoopJoin_sample :
    sample.nestedLoopJoin = [#[0, 0], #[0, 2], #[1, 0], #[1, 2]] := by
  decide +kernel

/-! ### Small tables -/

theorem HasSmallTables.cardinality_lt {q : Query} (h : q.HasSmallTables) (table : Nat) :
    q.cardinality table < 2 ^ 31 := by
  unfold cardinality
  cases ht : q.tables[table]? with
  | none => simp
  | some t => exact h t (Array.mem_of_getElem? ht)

end Query

end AdaptiveJoin
