import Mathlib.Data.List.Perm.Basic
import AdaptiveJoin.Proofs.Random
import AdaptiveJoin.Proofs.RowOrder
import AdaptiveJoin.Proofs.TableSet
import AdaptiveJoin.Search.Tree

/-!
# The nodes of the search tree

A node lists different tables of the query, and its actions are the remaining ones
(`OrderNode.IsFor`).  So the tables of a node and its actions together are all tables
(`OrderNode.IsFor.perm`).  Nothing that happens to the tree changes this: it holds of the first tree
(`OrderTree.isFor_start`), and adding nodes, recording tries and forgetting them keep it.
-/

namespace AdaptiveJoin

/-- A node lists different tables of a query, and its actions are the remaining ones. -/
structure OrderNode.IsFor (n : OrderNode) (q : Query) : Prop where
  nodup : n.path.toList.Nodup
  lt : ∀ table ∈ n.path, table < q.nrTables
  joined_eq : n.joined = .ofList n.path.toList
  actions_eq : n.actions.toList =
    (List.range q.nrTables).filter fun table => !n.joined.contains table

/-- All nodes of a tree are nodes for its query. -/
structure OrderTree.IsFor (t : OrderTree) (q : Query) : Prop where
  query_eq : t.query = q
  node : ∀ (id : Nat) (n : OrderNode), t.node? id = some n → n.IsFor q

namespace OrderNode

variable {n : OrderNode} {q : Query} (h : n.IsFor q) (hle : q.nrTables ≤ maxTables)

include h hle

theorem IsFor.contains_joined_iff {table : Nat} :
    n.joined.contains table = true ↔ table ∈ n.path := by
  rw [h.joined_eq, TableSet.contains_ofList_iff, Array.mem_toList_iff]
  intro t ht
  exact Nat.lt_of_lt_of_le (h.lt t (Array.mem_toList_iff.1 ht)) hle

theorem IsFor.mem_actions_iff {table : Nat} :
    table ∈ n.actions ↔ table < q.nrTables ∧ table ∉ n.path := by
  rw [← Array.mem_toList_iff, h.actions_eq, List.mem_filter, List.mem_range, Bool.not_eq_true',
    ← Bool.not_eq_true, h.contains_joined_iff hle]

omit hle in
theorem IsFor.nodup_actions : n.actions.toList.Nodup := by
  rw [h.actions_eq]
  exact List.nodup_range.filter _

/-- **The tables of a node and of its actions are all tables.** -/
theorem IsFor.perm : (n.path.toList ++ n.actions.toList).Perm (List.range q.nrTables) := by
  have hactions := h.nodup_actions
  have hdisjoint : n.path.toList.Disjoint n.actions.toList := by
    intro table hpath haction
    rw [Array.mem_toList_iff] at hpath haction
    exact ((h.mem_actions_iff hle).1 haction).2 hpath
  rw [List.perm_ext_iff_of_nodup (h.nodup.append hactions hdisjoint) List.nodup_range]
  intro table
  rw [List.mem_append, Array.mem_toList_iff, Array.mem_toList_iff, h.mem_actions_iff hle,
    List.mem_range]
  constructor
  · rintro (hpath | ⟨hlt, -⟩)
    · exact h.lt table hpath
    · exact hlt
  · intro hlt
    by_cases hpath : table ∈ n.path
    · exact Or.inl hpath
    · exact Or.inr ⟨hlt, hpath⟩

/-- So are the tables of a node, one of its actions and the other actions. -/
theorem IsFor.perm_of_mem {first : Nat} (hfirst : first ∈ n.actions) :
    (n.path.push first ++ n.actions.filter (· != first)).toList.Perm (List.range q.nrTables) := by
  have herase := (List.perm_cons_erase (Array.mem_toList_iff.2 hfirst)).symm
  rw [h.nodup_actions.erase_eq_filter, ← Array.toList_filter] at herase
  rw [Array.toList_append, Array.toList_push, List.append_assoc]
  exact (herase.append_left n.path.toList).trans (h.perm hle)

omit h hle in
theorem tableOf_mem {action : Nat} (haction : action < n.actions.size) :
    n.tableOf action ∈ n.actions := by
  unfold tableOf
  rw [Array.getElem?_eq_getElem haction, Option.getD_some]
  exact Array.getElem_mem haction

omit h hle in
/-- A table that is offered is the one of some action. -/
theorem exists_tableOf {table : Nat} (htable : table ∈ n.actions) :
    ∃ action < n.actions.size, n.tableOf action = table := by
  obtain ⟨action, haction, heq⟩ := Array.getElem_of_mem htable
  exact ⟨action, haction, by
    rw [tableOf, Array.getElem?_eq_getElem haction, heq, Option.getD_some]⟩

/-- The node of a leaf lists all tables. -/
theorem IsFor.isPermutation_of_isLeaf (hleaf : n.isLeaf = true) :
    JoinOrder.IsPermutation ⟨n.path⟩ q.nrTables := by
  have hperm := h.perm hle
  unfold isLeaf at hleaf
  rw [Array.isEmpty_iff] at hleaf
  rwa [hleaf, List.append_nil] at hperm

end OrderNode

namespace OrderTree

variable {t : OrderTree} {q : Query}

/-- A node made for different tables of the query. -/
theorem isFor_makeNode (hquery : t.query = q) {path : Array Nat} (hnodup : path.toList.Nodup)
    (hlt : ∀ table ∈ path, table < q.nrTables) : (t.makeNode path).IsFor q where
  nodup := hnodup
  lt := hlt
  joined_eq := rfl
  actions_eq := by
    rw [← hquery]
    rfl

/-- **A tree without episodes.** -/
theorem isFor_start (q : Query) (config : Config) : (OrderTree.start q config).IsFor q := by
  refine ⟨rfl, fun id n hn => ?_⟩
  obtain rfl := Array.mem_singleton.1 (Array.mem_of_getElem? hn)
  exact isFor_makeNode rfl List.nodup_nil fun _ htable => absurd htable (Array.not_mem_empty _)

/-- Recording a try leaves the tables of the nodes alone. -/
theorem IsFor.record (h : t.IsFor q) (id worker action : Nat) (reward : Float) :
    (t.record id worker action reward).IsFor q := by
  refine ⟨h.query_eq, fun id' n hn => ?_⟩
  simp only [OrderTree.record, node?, Array.getElem?_modify] at hn
  split at hn
  · obtain ⟨n', hn', rfl⟩ := Option.map_eq_some_iff.1 hn
    have hfor := h.node id' n' hn'
    exact ⟨hfor.nodup, hfor.lt, hfor.joined_eq, hfor.actions_eq⟩
  · exact h.node id' n hn

/-- Forgetting leaves the tables of the nodes alone. -/
theorem IsFor.forget (h : t.IsFor q) (worker : Nat) : (t.forget worker).IsFor q := by
  refine ⟨h.query_eq, fun id n hn => ?_⟩
  simp only [OrderTree.forget, node?, Array.getElem?_map] at hn
  obtain ⟨n', hn', rfl⟩ := Option.map_eq_some_iff.1 hn
  have hfor := h.node id n' hn'
  exact ⟨hfor.nodup, hfor.lt, hfor.joined_eq, hfor.actions_eq⟩

/-- **A node added behind an action lists the table of the action as well.** -/
theorem IsFor.expand (h : t.IsFor q) (hle : q.nrTables ≤ maxTables) {id action : Nat}
    (haction : ∀ n, t.node? id = some n → action < n.actions.size) :
    (t.expand id action).IsFor q := by
  unfold OrderTree.expand
  cases hnode : t.node? id with
  | none => exact h
  | some n =>
    have hn := h.node id n hnode
    obtain ⟨htable, hnew⟩ :=
      (hn.mem_actions_iff hle).1 (OrderNode.tableOf_mem (haction n hnode))
    dsimp only
    split
    · exact h
    · refine ⟨h.query_eq, fun id' n' hn' => ?_⟩
      simp only [node?, Array.getElem?_push, Array.size_modify, Array.getElem?_modify] at hn'
      split at hn'
      · -- The node added lists the path and the table of the action, which is not on the path.
        obtain rfl := Option.some.inj hn'
        apply isFor_makeNode h.query_eq
        · rw [Array.toList_push]
          refine hn.nodup.append (List.nodup_singleton _) fun table hpath heq => hnew ?_
          rw [← List.mem_singleton.1 heq]
          exact Array.mem_toList_iff.1 hpath
        · intro table hmem
          rcases Array.mem_push.1 hmem with hpath | rfl
          · exact hn.lt table hpath
          · exact htable
      · split at hn'
        · obtain ⟨n'', hn'', rfl⟩ := Option.map_eq_some_iff.1 hn'
          have hfor := h.node id' n'' hn''
          -- The parent has a new child only.
          exact ⟨hfor.nodup, hfor.lt, hfor.joined_eq, hfor.actions_eq⟩
        · exact h.node id' n' hn'

end OrderTree

end AdaptiveJoin
