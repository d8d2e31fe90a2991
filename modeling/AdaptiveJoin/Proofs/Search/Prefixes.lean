import AdaptiveJoin.Proofs.Search.Complete

/-!
# Orders are put together table by table

An episode joins further tables in two ways: it selects actions of nodes, and it completes the order
at random where the tree ends.  A property of the tables joined so far that both ways keep
(`OrderTree.Guides`) holds of every order that an episode executes (`OrderTree.sample_listed`), if
executed orders are never worth less than nothing: then the first attempt at a node is the only one
that leads to the execution of an order, so that no action is ever excluded on the way to it.
-/

namespace AdaptiveJoin

namespace OrderTree

/-- In trees of some kind, both ways to join a further table keep a property of the tables joined so
far. -/
structure Guides (q : Query) (limits : Limits) (kind : OrderTree → Prop)
    (property : List Nat → Prop) : Prop where
  /-- An action of a node is selected. -/
  select : ∀ {t : OrderTree} {id : Nat} {n : OrderNode} {action : Nat}, t.IsFor q → kind t →
    t.node? id = some n → limits.Allows n.path.toList → property n.path.toList →
      action ∈ candidates limits ∅ n → property (n.path.toList ++ [n.tableOf action])
  /-- The order of some first tables is completed at random. -/
  complete : ∀ {t : OrderTree} {rounds : Nat} {remaining start order : Array Nat}, t.query = q →
    start ≠ #[] → (∀ table < q.nrTables, table ∉ start.toList → table ∈ remaining) →
      property start.toList →
        t.complete? limits rounds remaining (.ofList start.toList) start = some order →
          property order.toList

namespace Run

variable {γ σ : Type}

/-- An episode stands at a node of a tree of some kind, and its tables have a property. -/
structure IsGuidedAt (q : Query) (limits : Limits) (kind : OrderTree → Prop)
    (property : List Nat → Prop) (r : Run γ σ) (id : Nat) (n : OrderNode) : Prop
    extends r.IsAt q limits id n where
  kind : kind r.tree
  property : property n.path.toList

variable {q : Query} {limits : Limits} {kind : OrderTree → Prop} {property : List Nat → Prop}
  {run : Execute σ} {r : Run γ σ} {id : Nat} {n : OrderNode} {action : Nat} {W : σ → Prop}
  [RandomSource γ] (hle : q.nrTables ≤ maxTables) (hguides : Guides q limits kind property)
  (hkeeps : ∀ order world, property order.toList → W world → W (run order world).2)

include hle hguides hkeeps

/-- A random completion behind tables with the property executes an order with it. -/
theorem playout_guided (hn : n.IsFor q) (hquery : r.tree.query = q) {first : Nat}
    (hfirst : property (n.path.toList ++ [first])) (hr : W r.world) :
    W (r.playout run limits n first).2.world := by
  unfold Run.playout
  have hshuffle := RandomSource.shuffle_perm (n.actions.filter (· != first)) r.source
  generalize RandomSource.shuffle (n.actions.filter (· != first)) r.source = shuffled at hshuffle ⊢
  obtain ⟨remaining, source⟩ := shuffled
  dsimp only at hshuffle ⊢
  split
  · exact hr
  · rename_i order horder
    have hjoined : n.joined.insert first = .ofList (n.path.push first).toList := by
      rw [Array.toList_push, TableSet.ofList, List.foldl_append, hn.joined_eq]
      rfl
    rw [hjoined] at horder
    -- The order completes the path and the table, and so keeps what guides the choice.
    refine hkeeps ⟨order⟩ r.world
      (hguides.complete hquery (by simp) (fun table htable hnew => ?_) ?_ horder) hr
    · rw [Array.toList_push, List.mem_append, List.mem_singleton, not_or, Array.mem_toList_iff]
        at hnew
      refine hshuffle.mem_iff.2 (Array.mem_filter.2 ⟨?_, by simpa using hnew.2⟩)
      exact (hn.mem_actions_iff hle).2 ⟨htable, hnew.1⟩
    · rwa [Array.toList_push]

variable (hkind : Run.Invariant q run fun r : Run γ σ => r.tree.IsFor q ∧ kind r.tree)

include hkind

/-- So does what an episode does behind an action. -/
theorem follow_guided {descend : Nat → Run γ σ → Option Float × Run γ σ}
    (h : r.IsGuidedAt q limits kind property id n)
    (hdescend : ∀ id' (r' : Run γ σ) n', r'.IsGuidedAt q limits kind property id' n' →
      n'.path.size = n.path.size + 1 → W r'.world → W (descend id' r').2.world)
    (haction : action < n.actions.size)
    (hallows : limits.Allows (n.path.toList ++ [n.tableOf action]))
    (hnext : property (n.path.toList ++ [n.tableOf action]))
    (hr : W r.world) : W (r.follow run descend limits id n action).2.world := by
  obtain ⟨-, -, -, hworld, -⟩ := h.expand hle haction
  obtain ⟨hfor, htree⟩ := hkind.expanded ⟨h.isFor, h.kind⟩
    (fun n' hn' => Option.some.inj (hn'.symm.trans h.node)) haction
  rw [← hworld] at hr
  rcases h.follow_cases hle run descend haction hallows with
    ⟨child, c, heq, hat, hpath⟩ | heq
  · -- Below a child the prefix is longer by one table.
    rw [heq]
    refine hdescend child _ c ⟨hat, htree, ?_⟩ (by rw [hpath, Array.size_push]) hr
    rwa [hpath, Array.toList_push]
  · -- Without a child the order is completed at random.
    rw [heq]
    exact playout_guided hle hguides hkeeps h.isFor_node hfor.query_eq hnext hr

/-- **What an episode does in a node** whose tables have the property executes orders with it. -/
theorem sampleNode_guided (hrun : ∀ order world, ¬(run order world).1 < 0) (levels : Nat)
    (h : r.IsGuidedAt q limits kind property id n)
    (hsize : n.path.size + levels = q.nrTables + 1) (hr : W r.world) :
    W (sampleNode run limits levels id r).2.world := by
  induction levels generalizing r id n with
  | zero => exact hr
  | succ levels ih =>
    unfold sampleNode
    rw [h.node]
    dsimp only
    by_cases hleaf : n.isLeaf = true
    · rw [if_pos hleaf]
      exact hkeeps ⟨n.path⟩ r.world h.property hr
    rw [if_neg hleaf]
    have hsize : n.path.size + levels = q.nrTables := by omega
    have hanswers (id' : Nat) (r' : Run γ σ) (n' : OrderNode) (hat : r'.IsAt q limits id' n')
        (hpath : n'.path.size + levels = q.nrTables + 1) :=
      sampleNode_answers hle hrun levels hat hpath
    by_cases hcan : limits.CanComplete q.nrTables n.path.toList
    · -- The first attempt executes an order, so nothing is excluded when the action is selected.
      obtain ⟨action, source, hselect, -, -, hworld⟩ := h.first_attempt hle hrun hsize hanswers hcan
        (Bool.not_eq_true _ ▸ hleaf) n.actions.size
      have hcandidate := mem_of_select? (congrArg Prod.fst hselect)
      have hallows := ((h.isFor_node.isAdmissible_iff h.allows).1
        (isAdmissible_of_mem_candidates hcandidate)).2
      have hdrawn :
          ({ r with source := source } : Run γ σ).IsGuidedAt q limits kind property id n :=
        ⟨⟨h.isFor, h.isLinked, h.node, h.allows⟩, h.kind, h.property⟩
      rw [hworld]
      exact follow_guided hle hguides hkeeps hkind hdrawn
        (fun id' r' n' hat hpath => ih hat (by omega)) (lt_of_mem_candidates hcandidate) hallows
        (hguides.select h.isFor h.kind h.node h.allows h.property hcandidate) hr
    · -- Nothing can be executed, so nothing has been.
      rw [(attempt_fails hle hsize hanswers h.toIsAt hcan _ _).world]
      exact hr

end Run

variable {γ σ : Type} [RandomSource γ] {q : Query} {t : OrderTree} {limits : Limits}
  {execute : Execute σ} {kind : OrderTree → Prop} {property : List Nat → Prop}

/-- Listing executed orders keeps a property of all listed orders. -/
theorem Execute.listing_keeps (execute : Execute σ) (P : JoinOrder → Prop) (order : JoinOrder)
    (world : σ × List JoinOrder) (horder : P order) (hworld : ∀ o ∈ world.2, P o) :
    ∀ o ∈ (execute.listing order world).2.2, P o := by
  intro o ho
  rcases List.mem_append.1 ho with ho | ho
  · exact hworld o ho
  · rwa [List.mem_singleton.1 ho]

/-- **Every executed order has a property that all steps towards it keep.** -/
theorem sample_listed (hle : q.nrTables ≤ maxTables) (hguides : Guides q limits kind property)
    (hkind : ∀ run : Execute (σ × List JoinOrder),
      Run.Invariant q run fun r : Run γ (σ × List JoinOrder) => r.tree.IsFor q ∧ kind r.tree)
    (hfor : t.IsFor q) (hlinked : t.IsLinked) (ht : kind t) (hnil : property [])
    (hexecute : ∀ order world, ¬(execute order world).1 < 0) (source : γ) (world : σ) :
    ∀ order ∈ (t.sample limits execute.listing source (world, [])).2.world.2,
      property order.toList := by
  obtain ⟨root, hroot, hpath⟩ := hlinked.root
  have hstart : root.path.toList = [] := by rw [hpath]
  have hat : Run.IsGuidedAt q limits kind property
      (⟨t, source, true, (world, [])⟩ : Run γ (σ × List JoinOrder)) 0 root :=
    ⟨⟨hfor, hlinked, hroot, hstart ▸ Limits.allows_nil⟩, ht, hstart ▸ hnil⟩
  have hsampled := Run.sampleNode_guided hle hguides
    (execute.listing_keeps fun order => property order.toList) (hkind _)
    (fun order world => hexecute order world.1) (q.nrTables + 1) hat
    (by rw [hpath, Array.size_empty, Nat.zero_add]) (by simp)
  unfold sample
  rw [hfor.query_eq]
  exact hsampled

end OrderTree

end AdaptiveJoin
