import AdaptiveJoin.Proofs.Search.Growth

/-!
# Ranked actions and the preferred order

Ranking the actions of a node keeps all of them (`OrderTree.ranked_perm`).  So the most tried
actions lead along different tables, and the order that the episodes have preferred lists every
table once (`OrderTree.bestOrder_isPermutation`), whatever has been tried.
-/

namespace AdaptiveJoin

namespace OrderTree

variable {t : OrderTree} {q : Query} {id : Nat} {n : OrderNode} {a : RankedAction}

/-! ### Ranked actions -/

/-- A ranked action is an action of its node. -/
theorem exists_of_mem_ranked (hn : t.node? id = some n) (ha : a ∈ t.ranked id) :
    ∃ action < n.actions.size, a.table = n.tableOf action ∧ a.child = n.child? action := by
  unfold ranked at ha
  rw [hn] at ha
  obtain ⟨action, haction, rfl⟩ := List.mem_map.1 (List.mem_mergeSort.1 ha)
  exact ⟨action, List.mem_range.1 haction, rfl, rfl⟩

/-- **Ranking keeps the tables of all actions.** -/
theorem ranked_perm (hn : t.node? id = some n) :
    ((t.ranked id).map RankedAction.table).Perm n.actions.toList := by
  have htables : (List.range n.actions.size).map n.tableOf = n.actions.toList := by
    apply List.ext_getElem
    · rw [List.length_map, List.length_range, Array.length_toList]
    · intro i hi hi'
      rw [List.getElem_map, List.getElem_range, Array.getElem_toList, OrderNode.tableOf,
        Array.getElem?_eq_getElem (by simpa using hi'), Option.getD_some]
  unfold ranked
  rw [hn]
  have hsorted := (List.mergeSort_perm ((List.range n.actions.size).map fun action =>
    (⟨n.tableOf action, n.totalTries action, n.child? action⟩ : RankedAction))
      RankedAction.precedes).map RankedAction.table
  rwa [List.map_map, show RankedAction.table ∘ _ = n.tableOf from rfl, htables] at hsorted

/-- The table of a ranked action is not joined yet. -/
theorem mem_actions_of_mem_ranked (hn : t.node? id = some n) (ha : a ∈ t.ranked id) :
    a.table ∈ n.actions :=
  Array.mem_toList_iff.1 ((ranked_perm hn).mem_iff.1 (List.mem_map_of_mem ha))

/-- The node behind a ranked action lists its table as well. -/
theorem IsLinked.child_of_mem_ranked (h : t.IsLinked) (hn : t.node? id = some n)
    (ha : a ∈ t.ranked id) {child : Nat} (hchild : a.child = some child) :
    ∃ c, t.node? child = some c ∧ c.path = n.path.push a.table := by
  obtain ⟨action, -, htable, heq⟩ := exists_of_mem_ranked hn ha
  rw [htable]
  exact h.child hn (heq.symm.trans hchild)

/-! ### The most tried path -/

/-- **The most tried actions lead along different tables of the query.** -/
theorem IsFor.nodup_mostTriedPath (hfor : t.IsFor q) (hlinked : t.IsLinked)
    (hle : q.nrTables ≤ maxTables) (levels : Nat) (hn : t.node? id = some n) :
    (n.path.toList ++ t.mostTriedPath levels id).Nodup ∧
      ∀ table ∈ t.mostTriedPath levels id, table < q.nrTables := by
  induction levels generalizing id n with
  | zero =>
    exact ⟨by simpa [mostTriedPath] using (hfor.node id n hn).nodup, by simp [mostTriedPath]⟩
  | succ levels ih =>
    have hnode := hfor.node id n hn
    have hnil : (n.path.toList ++ []).Nodup ∧ ∀ table ∈ ([] : List Nat), table < q.nrTables :=
      ⟨by rw [List.append_nil]; exact hnode.nodup, by simp⟩
    unfold mostTriedPath
    split
    · exact hnil
    · rename_i top rest hranked
      have htop : top ∈ t.ranked id := hranked ▸ List.mem_cons_self
      obtain ⟨hlt, hnew⟩ :=
        (hnode.mem_actions_iff hle).1 (mem_actions_of_mem_ranked hn htop)
      split
      · exact hnil
      · -- The rest of the path starts in the node that lists the table as well.
        suffices hrest : ∀ rest : List Nat, (n.path.toList ++ [top.table] ++ rest).Nodup →
            (∀ table ∈ rest, table < q.nrTables) →
              (n.path.toList ++ top.table :: rest).Nodup ∧
                ∀ table ∈ top.table :: rest, table < q.nrTables by
          split
          · rename_i child hchild
            -- The path goes on in the child, which lists the table on its own path.
            obtain ⟨c, hc, hpath⟩ := hlinked.child_of_mem_ranked hn htop hchild
            obtain ⟨hnodup, hlt'⟩ := ih hc
            rw [hpath, Array.toList_push] at hnodup
            exact hrest _ hnodup hlt'
          · refine hrest [] ?_ (by simp)
            rw [List.append_nil]
            refine hnode.nodup.append (List.nodup_singleton _) fun table hmem heq => hnew ?_
            rw [← List.mem_singleton.1 heq]
            exact Array.mem_toList_iff.1 hmem
        intro rest hnodup hlt'
        rw [List.append_assoc] at hnodup
        refine ⟨hnodup, fun table hmem => ?_⟩
        rcases List.mem_cons.1 hmem with rfl | hmem
        · exact hlt
        · exact hlt' table hmem

/-! ### The preferred order -/

/-- Completing an order in ascending order lists the remaining tables. -/
theorem completeConnected_perm (q : Query) {rounds : Nat} {remaining : List Nat}
    (hrounds : rounds = remaining.length) (joined : TableSet) :
    (completeConnected q rounds remaining joined).Perm remaining := by
  induction rounds generalizing remaining joined with
  | zero =>
    obtain rfl := List.eq_nil_of_length_eq_zero hrounds.symm
    exact .refl _
  | succ rounds ih =>
    cases remaining with
    | nil => exact absurd hrounds (by simp)
    | cons first rest =>
      unfold completeConnected
      dsimp only
      have hmem : ((first :: rest).find? fun table => q.isConnected table joined).getD first ∈
          first :: rest := by
        -- The first connected table is taken, or the first one of all.
        cases hfind : (first :: rest).find? fun table => q.isConnected table joined with
        | none => exact List.mem_cons_self
        | some table => exact List.mem_of_find?_eq_some hfind
      generalize ((first :: rest).find? fun table => q.isConnected table joined).getD first = table
        at hmem ⊢
      have hlength : rounds = ((first :: rest).erase table).length := by
        rw [List.length_erase_of_mem hmem, ← hrounds, Nat.add_sub_cancel]
      have hrest := ih hlength (joined.insert table)
      exact (hrest.cons table).trans (List.perm_cons_erase hmem).symm

/-- **The preferred order lists every table once.** -/
theorem IsFor.bestOrder_isPermutation (hfor : t.IsFor q) (hlinked : t.IsLinked)
    (hle : q.nrTables ≤ maxTables) : t.bestOrder.IsPermutation q.nrTables := by
  obtain ⟨root, hroot, hpath⟩ := hlinked.root
  obtain ⟨hnodup, hlt⟩ := hfor.nodup_mostTriedPath hlinked hle (q.nrTables + 1) hroot
  rw [hpath, List.nil_append] at hnodup
  -- The remaining tables are the actions of the node that lists the path.
  have hnode : (t.makeNode (t.mostTriedPath (q.nrTables + 1) 0).toArray).IsFor q :=
    isFor_makeNode hfor.query_eq hnodup fun table hmem => hlt table (List.mem_toArray.1 hmem)
  have hperm := hnode.perm hle
  unfold JoinOrder.IsPermutation bestOrder
  simp only [hfor.query_eq]
  refine ((completeConnected_perm q rfl _).append_left _).trans ?_
  rw [← hfor.query_eq] at hperm ⊢
  exact hperm

end OrderTree

end AdaptiveJoin
