import Mathlib.Logic.Relation
import AdaptiveJoin.Proofs.Query.Built
import AdaptiveJoin.Proofs.TableSet

/-!
# The join graph

A query keeps the neighbours of every table while predicates are added.  In every query that is
assembled in this way (`Query.Assembled`), whatever the predicates compute, the neighbours of a
table are the other tables that it shares a predicate with (`Query.Assembled.contains_neighbours`).
So a table is connected with some tables iff a predicate connects them
(`Query.Assembled.isConnected_iff`).

If the predicates connect all tables, then every proper part of the tables is connected with one of
the remaining tables (`Query.HasConnectedGraph.exists_connects`).
-/

namespace AdaptiveJoin

namespace Query

/-- The queries that are assembled from tables, predicates of any kind, and marks. -/
inductive Assembled : Query → Prop
  | ofTables (tables : Array Table) : Assembled (.ofTables tables)
  | addPredicate {q q' : Query} {p : Predicate} {id : Nat} (h : Assembled q)
      (hadd : q.addPredicate p = .ok (q', id)) : Assembled q'
  | markTemporary {q : Query} (table : Nat) (h : Assembled q) : Assembled (q.markTemporary table)

/-- Two tables share a predicate. -/
def Shares (q : Query) (a b : Nat) : Prop := ∃ p ∈ q.predicates, a ∈ p.tables ∧ b ∈ p.tables

/-- A predicate connects a table with another one of some tables. -/
def Connects (q : Query) (table : Nat) (tables : List Nat) : Prop :=
  ∃ other ∈ tables, other ≠ table ∧ q.Shares table other

/-- Predicates lead from every table to every other one. -/
def HasConnectedGraph (q : Query) : Prop :=
  ∀ a b, a < q.nrTables → b < q.nrTables → Relation.ReflTransGen q.Shares a b

/-- The neighbours that a query keeps are those that its predicates give the tables. -/
structure HasGraph (q : Query) : Prop where
  size_eq : q.graph.size = q.nrTables
  lt : ∀ p ∈ q.predicates, ∀ t ∈ p.tables, t < q.nrTables ∧ t < maxTables
  contains_iff : ∀ a b, (q.neighbours a).contains b = true ↔ b ≠ a ∧ q.Shares a b

variable {q q' : Query} {p : Predicate} {a b id : Nat}

theorem Shares.symm (h : q.Shares a b) : q.Shares b a :=
  let ⟨p, hp, ha, hb⟩ := h
  ⟨p, hp, hb, ha⟩

/-! ### Adding a predicate -/

/-- What the tables of a list are given as neighbours. -/
theorem contains_foldl_modify (neighbours : TableSet) (graph : Array TableSet)
    (tables : List Nat) (a b : Nat) :
    ((tables.foldl (fun g t => g.modify t fun s => s.union (neighbours.erase t))
      graph)[a]?.getD ∅).contains b = true ↔
      (graph[a]?.getD ∅).contains b = true ∨
        (a < graph.size ∧ a ∈ tables ∧ neighbours.contains b = true ∧ b ≠ a) := by
  induction tables generalizing graph with
  | nil => simp
  | cons t tables ih =>
    have hmodify : ((graph.modify t fun s => s.union (neighbours.erase t))[a]?.getD ∅).contains b =
        true ↔ (graph[a]?.getD ∅).contains b = true ∨
          (a < graph.size ∧ a = t ∧ neighbours.contains b = true ∧ b ≠ a) := by
      rw [Array.getElem?_modify]
      -- The neighbours are added to the table itself only, and only if the graph has it.
      by_cases ht : t = a
      · subst ht
        by_cases hlt : t < graph.size
        · rw [if_pos rfl, Array.getElem?_eq_getElem hlt, Option.map_some, Option.getD_some,
            Option.getD_some, TableSet.contains_union, TableSet.contains_erase, Bool.or_eq_true,
            Bool.and_eq_true, decide_eq_true_eq, ne_comm]
          simp only [hlt, true_and]
        · rw [if_pos rfl, Array.getElem?_eq_none (Nat.not_lt.1 hlt)]
          simp [hlt]
      · rw [if_neg ht]
        simp [Ne.symm ht]
    rw [List.foldl_cons, ih, hmodify, Array.size_modify, List.mem_cons]
    tauto

theorem contains_connect {graph : Array TableSet} {tables : List Nat}
    (hlt : ∀ t ∈ tables, t < graph.size ∧ t < maxTables) :
    ((connect graph tables)[a]?.getD ∅).contains b = true ↔
      (graph[a]?.getD ∅).contains b = true ∨ (b ≠ a ∧ a ∈ tables ∧ b ∈ tables) := by
  unfold connect
  rw [contains_foldl_modify, TableSet.contains_ofList_iff fun t ht => (hlt t ht).2]
  refine or_congr_right ⟨fun ⟨_, ha, hb, hne⟩ => ⟨hne, ha, hb⟩, fun ⟨hne, ha, hb⟩ => ?_⟩
  exact ⟨(hlt a ha).1, ha, hb, hne⟩

theorem size_connect (graph : Array TableSet) (tables : List Nat) :
    (connect graph tables).size = graph.size := by
  unfold connect
  generalize TableSet.ofList tables = neighbours
  induction tables generalizing graph with
  | nil => rfl
  | cons t tables ih => rw [List.foldl_cons, ih, Array.size_modify]

/-- What an added predicate adds to the join graph. -/
theorem graph_of_addPredicate (hadd : q.addPredicate p = .ok (q', id)) :
    q'.graph = connect q.graph p.tables := by
  unfold Query.addPredicate at hadd
  split at hadd
  · exact absurd hadd (by simp)
  · split at hadd
    · exact absurd hadd (by simp)
    · obtain ⟨rfl, -⟩ := Prod.mk.inj (Except.ok.inj hadd)
      rfl

theorem hasGraph_ofTables (tables : Array Table) : (ofTables tables).HasGraph where
  size_eq := Array.size_replicate
  lt p hp := absurd hp (Array.not_mem_empty p)
  contains_iff a b := by
    have hnone : ((ofTables tables).neighbours a).contains b = false := by
      unfold neighbours ofTables
      rw [Array.getElem?_replicate]
      split <;> exact TableSet.contains_empty b
    rw [hnone]
    refine ⟨fun h => absurd h Bool.false_ne_true, fun ⟨_, p, hp, _⟩ => ?_⟩
    exact absurd hp (Array.not_mem_empty p)

/-- **A predicate connects its tables and no others.** -/
theorem HasGraph.addPredicate (h : q.HasGraph) (hadd : q.addPredicate p = .ok (q', id)) :
    q'.HasGraph := by
  obtain ⟨htables, hpredicates, -, hlt⟩ := addPredicate_eq_ok hadd
  have hgraph := graph_of_addPredicate hadd
  have hn : q'.nrTables = q.nrTables := by rw [nrTables, nrTables, htables]
  constructor
  · rw [hgraph, size_connect, h.size_eq, hn]
  · intro p' hp'
    rw [hpredicates, Array.mem_push] at hp'
    rw [hn]
    rcases hp' with hp' | rfl
    · exact h.lt p' hp'
    · exact hlt
  · intro a b
    have hshares : q'.Shares a b ↔ q.Shares a b ∨ (a ∈ p.tables ∧ b ∈ p.tables) := by
      unfold Shares
      simp only [hpredicates, Array.mem_push, or_and_right, exists_or, exists_eq_left]
    have hold : (q.graph[a]?.getD ∅).contains b = true ↔ b ≠ a ∧ q.Shares a b :=
      h.contains_iff a b
    rw [neighbours, hgraph, contains_connect (h.size_eq.symm ▸ hlt), hold, hshares, ← and_or_left]

/-- **The neighbours of a table are the other tables that share a predicate with it.** -/
theorem Assembled.hasGraph (h : q.Assembled) : q.HasGraph := by
  induction h with
  | ofTables tables => exact hasGraph_ofTables tables
  | addPredicate _ hadd ih => exact ih.addPredicate hadd
  | markTemporary table _ ih => exact { ih with }

/-- **A table is connected with some tables iff a predicate connects them.** -/
theorem Assembled.isConnected_iff (h : q.Assembled) {table : Nat} {tables : List Nat} :
    q.isConnected table (.ofList tables) = true ↔ q.Connects table tables := by
  unfold isConnected Connects
  rw [TableSet.intersects_iff]
  simp only [h.hasGraph.contains_iff, TableSet.contains_ofList, decide_eq_true_eq]
  constructor
  · rintro ⟨other, ⟨hne, hshares⟩, -, hmem⟩
    exact ⟨other, hmem, hne, hshares⟩
  · rintro ⟨other, hmem, hne, p, hp, htable, hother⟩
    exact ⟨other, ⟨hne, p, hp, htable, hother⟩, (h.hasGraph.lt p hp other hother).2, hmem⟩

/-- A query that is built of comparisons and local predicates is assembled of predicates. -/
theorem Built.assembled (h : q.Built) : q.Assembled := by
  induction h with
  | ofTables tables => exact .ofTables tables
  | addEquiJoin _ hadd ih =>
    obtain ⟨p, -, hadd⟩ := bind_eq_ok hadd
    exact ih.addPredicate hadd
  | addColumnComparison _ hadd ih =>
    obtain ⟨p, -, hadd⟩ := bind_eq_ok hadd
    exact ih.addPredicate hadd
  | addConstantFilter _ hadd ih =>
    obtain ⟨p, -, hadd⟩ := bind_eq_ok hadd
    exact ih.addPredicate hadd
  | addCustom _ _ hadd ih => exact ih.addPredicate hadd
  | markTemporary table _ ih => exact ih.markTemporary table

/-! ### Connected graphs -/

/-- **Some tables that are not all tables are connected with one of the others.** -/
theorem HasConnectedGraph.exists_connects (h : q.HasConnectedGraph) (hgraph : q.HasGraph)
    {tables : List Nat} (hlt : ∀ t ∈ tables, t < q.nrTables) (hne : tables ≠ [])
    (ha : a < q.nrTables) (hnew : a ∉ tables) :
    ∃ other < q.nrTables, other ∉ tables ∧ q.Connects other tables := by
  obtain ⟨first, hfirst⟩ := List.exists_mem_of_ne_nil tables hne
  -- The way from a listed table to a missing one leaves the listed tables somewhere.
  have hway := h first a (hlt first hfirst) ha
  induction hway with
  | refl => exact absurd hfirst hnew
  | @tail b c _ hshares ih =>
    obtain ⟨p, hp, hb, hc⟩ := hshares
    by_cases hmem : b ∈ tables
    · exact ⟨c, ha, hnew, b, hmem, fun heq => hnew (heq ▸ hmem), p, hp, hc, hb⟩
    · exact ih ((hgraph.lt p hp b hb).1) hmem

end Query

end AdaptiveJoin
