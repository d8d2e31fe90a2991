import AdaptiveJoin.Proofs.Search.Complete
import AdaptiveJoin.Proofs.Search.Ranking

/-!
# The shape of the search tree

Every node of the search tree lists different tables and offers the remaining ones
(`OrderNode.IsShaped`); the node behind an action lists the table of the action as well, so that no
two nodes below the root list the same tables in the same order (`OrderTree.IsShaped`).

* `OrderTree.Later.keepsChildren`: a node that stands behind an action stays there.
* `OrderTree.size_sample_le`: an episode adds at most one node.
* `OrderTree.reachable_isShaped`: all trees that episodes can build have this shape, do not grow
  beyond their capacity, and prefer an order that lists every table once.
-/

namespace AdaptiveJoin

namespace OrderNode

/-- A node lists different tables of a query, its actions are the remaining ones in ascending order,
and it prefers some of them unless there are none. -/
structure IsShaped (n : OrderNode) (q : Query) : Prop where
  nodup : n.path.toList.Nodup
  contains_joined_iff : ∀ table, n.joined.contains table = true ↔ table ∈ n.path
  actions_eq : n.actions.toList = (List.range q.nrTables).filter fun table => table ∉ n.path
  mem_actions : ∀ table, n.recommended.contains table = true → table ∈ n.actions
  exists_recommended : n.isLeaf = false → ∃ table, n.recommended.contains table = true

/-- A node prefers actions only, some unless there are none, and has room for a node behind every
action. -/
structure IsRegular (n : OrderNode) : Prop where
  mem_actions : ∀ table, n.recommended.contains table = true → table ∈ n.actions
  exists_recommended : n.isLeaf = false → ∃ table, n.recommended.contains table = true
  size_children : n.children.size = n.actions.size

variable {n : OrderNode} {q : Query}

/-- What is known of the tables of a node and of its preferences. -/
theorem IsFor.isShaped (h : n.IsFor q) (hle : q.nrTables ≤ maxTables) (hregular : n.IsRegular) :
    n.IsShaped q where
  nodup := h.nodup
  contains_joined_iff _ := h.contains_joined_iff hle
  actions_eq := by
    rw [h.actions_eq]
    refine List.filter_congr fun table _ => ?_
    rw [Bool.eq_iff_iff, Bool.not_eq_true', ← Bool.not_eq_true, h.contains_joined_iff hle,
      decide_eq_true_eq]
  mem_actions := hregular.mem_actions
  exists_recommended := hregular.exists_recommended

/-- An action with a node behind it is an action of the node. -/
theorem IsRegular.getElem?_actions (h : n.IsRegular) {action child : Nat}
    (hchild : n.child? action = some child) : n.actions[action]? = some (n.tableOf action) := by
  obtain ⟨hlt, -⟩ := Array.getElem?_eq_some_iff.1 (Option.join_eq_some_iff.1 hchild)
  rw [tableOf, Array.getElem?_eq_getElem (h.size_children ▸ hlt), Option.getD_some]

end OrderNode

namespace OrderTree

variable {t t' t'' : OrderTree} {q : Query}

/-- All nodes of a tree prefer actions only. -/
def IsRegular (t : OrderTree) : Prop := ∀ id n, t.node? id = some n → n.IsRegular

/-- A node that stands behind an action stays there. -/
def KeepsChildren (t t' : OrderTree) : Prop :=
  ∀ id n action child, t.node? id = some n → n.child? action = some child →
    ∃ n', t'.node? id = some n' ∧ n'.child? action = some child

/-- The trees that episodes and forgetting can make of a tree. -/
inductive Later (t : OrderTree) : OrderTree → Prop where
  | same : Later t t
  | sample {γ σ : Type} [RandomSource γ] {t' : OrderTree} (limits : Limits) (execute : Execute σ)
      (source : γ) (world : σ) (h : Later t t') :
      Later t (t'.sample limits execute source world).2.tree
  | forget {t' : OrderTree} (worker : Nat) (h : Later t t') : Later t (t'.forget worker)

/-- The root and the nodes behind the actions of such nodes. -/
inductive FromRoot (t : OrderTree) : Nat → Prop where
  | root : FromRoot t 0
  | child {id : Nat} {n : OrderNode} {action child : Nat} (h : FromRoot t id)
      (hn : t.node? id = some n) (hchild : n.child? action = some child) : FromRoot t child

/-- The shape of a tree: its nodes are shaped for the query, node 0 lists no table, the node behind
an action lists the table of the action as well, and the tables of a node tell it from all
others. -/
structure IsShaped (t : OrderTree) (q : Query) : Prop where
  node : ∀ id n, t.node? id = some n → n.IsShaped q
  root : ∃ n, t.node? 0 = some n ∧ n.path = #[]
  child : ∀ id n action child, t.node? id = some n → n.child? action = some child →
    ∃ table c, n.actions[action]? = some table ∧ t.node? child = some c ∧
      c.path = n.path.push table
  eq_of_path_eq : ∀ id id' n n', t.FromRoot id → t.FromRoot id' → t.node? id = some n →
    t.node? id' = some n' → n.path = n'.path → id = id'

/-! ### Preferences -/

section Preferences

variable {actions : List Nat}

theorem recommendedRoots_eq (t : OrderTree) (actions : List Nat) :
    ∃ preferred : List Nat, t.recommendedRoots actions = .ofList preferred ∧
      (∀ table ∈ preferred, table ∈ actions) ∧ (actions ≠ [] → preferred ≠ []) := by
  unfold recommendedRoots
  dsimp only
  split
  · rename_i hlarge
    refine ⟨_, rfl, fun table h => (List.mem_filter.1 (List.mem_filter.1 h).1).1, fun _ => ?_⟩
    simpa using hlarge
  · split
    · rename_i hbase
      refine ⟨_, rfl, fun table h => (List.mem_filter.1 h).1, fun _ => ?_⟩
      simpa using hbase
    · exact ⟨_, rfl, fun _ => id, id⟩

theorem recommendedNext_eq (t : OrderTree) (actions : List Nat) (joined : TableSet) :
    ∃ preferred : List Nat, t.recommendedNext actions joined = .ofList preferred ∧
      (∀ table ∈ preferred, table ∈ actions) ∧ (actions ≠ [] → preferred ≠ []) := by
  unfold recommendedNext
  dsimp only
  split
  · exact ⟨_, rfl, fun _ => id, id⟩
  · rename_i hconnected
    refine ⟨_, rfl, fun table h => (List.mem_filter.1 h).1, fun _ hnil => hconnected ?_⟩
    rw [hnil]
    rfl

/-- **A new node prefers some of its actions.** -/
theorem isRegular_makeNode (hle : t.query.nrTables ≤ maxTables) (path : Array Nat) :
    (t.makeNode path).IsRegular := by
  have hlt : ∀ table ∈ (t.makeNode path).actions.toList, table < maxTables := by
    intro table htable
    have := List.mem_range.1 (List.mem_filter.1 htable).1
    omega
  -- Whatever is recommended, it is a list of actions that is empty only if there are none.
  obtain ⟨preferred, heq, hmem, hne⟩ : ∃ preferred : List Nat,
      (t.makeNode path).recommended = .ofList preferred ∧
        (∀ table ∈ preferred, table ∈ (t.makeNode path).actions.toList) ∧
          ((t.makeNode path).actions.toList ≠ [] → preferred ≠ []) := by
    unfold makeNode
    dsimp only
    split
    · exact ⟨_, rfl, fun _ => id, id⟩
    · split
      · exact recommendedRoots_eq t _
      · exact recommendedNext_eq t _ _
  constructor
  · intro table htable
    rw [heq, TableSet.contains_ofList_iff fun t ht => hlt t (hmem t ht)] at htable
    exact Array.mem_toList_iff.1 (hmem table htable)
  · intro hleaf
    obtain ⟨table, htable⟩ := List.exists_mem_of_ne_nil _ (hne fun hnil => by
      rw [OrderNode.isLeaf, Array.toList_eq_nil_iff.1 hnil] at hleaf
      exact absurd hleaf (by decide))
    refine ⟨table, ?_⟩
    rwa [heq, TableSet.contains_ofList_iff fun t ht => hlt t (hmem t ht)]
  · exact Array.size_replicate

end Preferences

theorem isRegular_start (q : Query) (config : Config) (hle : q.nrTables ≤ maxTables) :
    (start q config).IsRegular := by
  intro id n hn
  obtain rfl := Array.mem_singleton.1 (Array.mem_of_getElem? hn)
  exact isRegular_makeNode hle _

/-- Nodes stay regular if they keep their actions and preferences and their room for children. -/
theorem IsRegular.of_map (h : t.IsRegular) {f : Nat → OrderNode → OrderNode}
    (hf : ∀ id n, (f id n).actions = n.actions ∧ (f id n).recommended = n.recommended ∧
      (f id n).children.size = n.children.size)
    (hnodes : ∀ id, t'.node? id = (t.node? id).map (f id)) : t'.IsRegular := by
  intro id n' hn'
  rw [hnodes] at hn'
  obtain ⟨n, hn, rfl⟩ := Option.map_eq_some_iff.1 hn'
  obtain ⟨hactions, hrecommended, hsize⟩ := hf id n
  obtain ⟨hmem, hexists, hchildren⟩ := h id n hn
  refine ⟨?_, ?_, ?_⟩
  · rwa [hrecommended, hactions]
  · rwa [hrecommended, OrderNode.isLeaf, hactions]
  · rw [hsize, hactions, hchildren]

theorem IsRegular.record (h : t.IsRegular) (id worker action : Nat) (reward : Float) :
    (t.record id worker action reward).IsRegular :=
  h.of_map (fun id' n => by split <;> exact ⟨rfl, rfl, rfl⟩)
    (node?_record t id worker action reward)

theorem IsRegular.forget (h : t.IsRegular) (worker : Nat) : (t.forget worker).IsRegular :=
  h.of_map (f := fun _ n => n.forget worker) (fun _ _ => ⟨rfl, rfl, rfl⟩) (node?_forget t worker)

theorem IsRegular.expand (h : t.IsRegular) (hle : t.query.nrTables ≤ maxTables) (id action : Nat) :
    (t.expand id action).IsRegular := by
  rcases expand_cases t id action with heq | ⟨n, -, -, hnodes⟩
  · rwa [heq]
  · intro id' n' hn'
    rw [hnodes] at hn'
    split at hn'
    · obtain rfl := Option.some.inj hn'
      exact isRegular_makeNode hle _
    · obtain ⟨m, hm, rfl⟩ := Option.map_eq_some_iff.1 hn'
      have hregular := h id' m hm
      split
      · exact ⟨hregular.mem_actions, hregular.exists_recommended,
          Array.size_setIfInBounds.trans hregular.size_children⟩
      · exact hregular

/-! ### Children -/

theorem KeepsChildren.refl (t : OrderTree) : t.KeepsChildren t :=
  fun _ n _ _ hn hchild => ⟨n, hn, hchild⟩

theorem KeepsChildren.trans (h : t.KeepsChildren t') (h' : t'.KeepsChildren t'') :
    t.KeepsChildren t'' := by
  intro id n action child hn hchild
  obtain ⟨n', hn', hchild'⟩ := h id n action child hn hchild
  exact h' id n' action child hn' hchild'

theorem keepsChildren_record (t : OrderTree) (id worker action : Nat) (reward : Float) :
    t.KeepsChildren (t.record id worker action reward) := by
  intro id' n action' child hn hchild
  refine ⟨_, by rw [node?_record, hn]; rfl, ?_⟩
  split <;> exact hchild

theorem keepsChildren_forget (t : OrderTree) (worker : Nat) :
    t.KeepsChildren (t.forget worker) := by
  intro id n action child hn hchild
  exact ⟨n.forget worker, by rw [node?_forget, hn]; rfl, hchild⟩

/-- Only an action that has no node behind it is given one. -/
theorem keepsChildren_expand (t : OrderTree) (id action : Nat) :
    t.KeepsChildren (t.expand id action) := by
  intro id' n action' child hn hchild
  rcases expand_cases t id action with heq | ⟨m, hm, hfree, hnodes⟩
  · exact ⟨n, by rwa [heq], hchild⟩
  · have hne : id' ≠ t.nodes.size := by
      rintro rfl
      rw [node?_size] at hn
      exact absurd hn (by simp)
    refine ⟨_, by rw [hnodes, if_neg hne, hn]; rfl, ?_⟩
    split
    · rename_i hid
      subst hid
      obtain rfl := Option.some.inj (hm.symm.trans hn)
      -- The slot that is filled was free, so it is not the one of the old child.
      have haction : action ≠ action' := by
        rintro rfl
        rw [hfree] at hchild
        exact absurd hchild (by simp)
      rw [OrderNode.child?, Array.getElem?_setIfInBounds_ne haction]
      exact hchild
    · exact hchild

/-- **The tables of a node tell it from the other nodes below the root.** -/
theorem IsLinked.eq_of_path_eq (h : t.IsLinked) (hfor : t.IsFor q) (hregular : t.IsRegular)
    {id id' : Nat} {n n' : OrderNode} (hid : t.FromRoot id) (hid' : t.FromRoot id')
    (hn : t.node? id = some n) (hn' : t.node? id' = some n') (hpath : n.path = n'.path) :
    id = id' := by
  obtain ⟨root, hroot, hempty⟩ := h.root
  induction hid generalizing id' n n' with
  | root =>
    obtain rfl := Option.some.inj (hroot.symm.trans hn)
    cases hid' with
    | root => rfl
    | child _ hm hchild =>
      obtain ⟨c, hc, hcpath⟩ := h.child hm hchild
      obtain rfl := Option.some.inj (hc.symm.trans hn')
      rw [hempty, hcpath] at hpath
      exact absurd hpath.symm Array.push_ne_empty
  | @child parent m action _ hparent hm hchild ih =>
    obtain ⟨c, hc, hcpath⟩ := h.child hm hchild
    obtain rfl := Option.some.inj (hc.symm.trans hn)
    cases hid' with
    | root =>
      obtain rfl := Option.some.inj (hroot.symm.trans hn')
      rw [hempty, hcpath] at hpath
      exact absurd hpath Array.push_ne_empty
    | @child _ m' action' _ hparent' hm' hchild' =>
      obtain ⟨c', hc', hcpath'⟩ := h.child hm' hchild'
      obtain rfl := Option.some.inj (hc'.symm.trans hn')
      -- Both nodes stand behind the same action of the same node.
      rw [hcpath, hcpath'] at hpath
      obtain ⟨hpaths, htables⟩ := Array.push_eq_push.1 hpath
      obtain rfl := ih hparent' hm hm' htables
      obtain rfl := Option.some.inj (hm.symm.trans hm')
      obtain ⟨hlt, htable⟩ :=
        Array.getElem?_eq_some_iff.1 ((hregular _ m hm).getElem?_actions hchild)
      obtain ⟨hlt', htable'⟩ :=
        Array.getElem?_eq_some_iff.1 ((hregular _ m hm).getElem?_actions hchild')
      have hnodup := (hfor.node _ m hm).nodup_actions
      have haction : action = action' := by
        rw [← Array.length_toList] at hlt hlt'
        have hsame : m.actions.toList[action] = m.actions.toList[action'] := by
          rw [Array.getElem_toList, Array.getElem_toList, htable, htable', hpaths]
        exact hnodup.getElem_inj_iff.1 hsame
      rw [haction, hchild'] at hchild
      exact (Option.some.inj hchild).symm

/-! ### Episodes -/

theorem size_expand_le (t : OrderTree) (id action : Nat) :
    (t.expand id action).nodes.size ≤ t.nodes.size + 1 ∧
      (t.nodes.size ≤ t.capacity → (t.expand id action).nodes.size ≤ t.capacity) ∧
        (t.expand id action).capacity = t.capacity := by
  unfold expand
  split
  · exact ⟨Nat.le_succ _, fun h => h, rfl⟩
  · dsimp only
    split
    · exact ⟨Nat.le_succ _, fun h => h, rfl⟩
    · rename_i hroom
      rw [Bool.or_eq_true, decide_eq_true_eq, not_or] at hroom
      rw [Array.size_push, Array.size_modify]
      exact ⟨by omega, fun _ => by omega, rfl⟩

/-- What an episode has made of a tree so far: a larger one, by one node at most. -/
structure Run.HasGrown {γ σ : Type} (r : Run γ σ) (q : Query) (t : OrderTree) : Prop where
  isFor : r.tree.IsFor q
  isRegular : r.tree.IsRegular
  keepsChildren : t.KeepsChildren r.tree
  capacity_eq : r.tree.capacity = t.capacity
  size_le_capacity : t.nodes.size ≤ t.capacity → r.tree.nodes.size ≤ t.capacity
  size_le : r.tree.nodes.size ≤ t.nodes.size + 1
  /-- As long as a node may be added, none has been. -/
  size_eq : r.canExpand = true → r.tree.nodes.size = t.nodes.size

/-- **Every step of an episode leaves the tree shaped**, and an episode adds one node at most. -/
theorem hasGrown_invariant {γ σ : Type} [RandomSource γ] (hle : q.nrTables ≤ maxTables)
    (run : Execute σ) (t : OrderTree) :
    Run.Invariant q run fun r : Run γ σ => r.HasGrown q t where
  isFor hr := hr.isFor
  draw hr _ := { hr with }
  execute hr _ _ := { hr with }
  expand {r} hr hfree id action haction := by
    obtain ⟨hsize, hcapacity, heq⟩ := size_expand_le r.tree id action
    exact
      { isFor := hr.isFor.expand hle haction
        isRegular := hr.isRegular.expand (hr.isFor.query_eq ▸ hle) id action
        keepsChildren := hr.keepsChildren.trans (keepsChildren_expand _ _ _)
        capacity_eq := heq.trans hr.capacity_eq
        size_le_capacity := fun h =>
          hr.capacity_eq ▸ hcapacity (hr.capacity_eq ▸ hr.size_le_capacity h)
        size_le := hr.size_eq hfree ▸ hsize
        -- An episode expands once only, so from now on it must not expand.
        size_eq := fun h => absurd h Bool.false_ne_true }
  record {r} hr id worker action reward := by
    have hsize : (r.tree.record id worker action reward).nodes.size = r.tree.nodes.size :=
      Array.size_modify
    exact
      { isFor := hr.isFor.record _ _ _ _
        isRegular := hr.isRegular.record _ _ _ _
        keepsChildren := hr.keepsChildren.trans (keepsChildren_record _ _ _ _ _)
        capacity_eq := hr.capacity_eq
        size_le_capacity := fun h => hsize ▸ hr.size_le_capacity h
        size_le := hsize ▸ hr.size_le
        size_eq := fun h => hsize ▸ hr.size_eq h }

/-- What an episode makes of a tree. -/
theorem hasGrown_sample {γ σ : Type} [RandomSource γ] (hle : q.nrTables ≤ maxTables)
    (hfor : t.IsFor q) (hregular : t.IsRegular) (limits : Limits) (execute : Execute σ) (source : γ)
    (world : σ) : (t.sample limits execute source world).2.HasGrown q t :=
  (hasGrown_invariant hle execute t).sample hle limits source world
    ⟨hfor, hregular, .refl t, rfl, id, Nat.le_succ _, fun _ => rfl⟩

/-! ### Trees that episodes can build -/

section Reachable

variable {config : Config} (hle : q.nrTables ≤ maxTables)

include hle

theorem Reachable.isRegular (ht : Reachable q config t) : t.IsRegular := by
  induction ht with
  | start => exact isRegular_start q config hle
  | sample limits execute source world ht ih =>
    exact (hasGrown_sample hle (ht.isLinked hle).1 ih limits execute source world).isRegular
  | forget worker ht ih => exact ih.forget worker

/-- A tree does not grow beyond its capacity. -/
theorem Reachable.size_le (ht : Reachable q config t) :
    t.nodes.size ≤ t.capacity ∧ t.capacity ≤ max 1 config.maxTreeNodes.toNat := by
  induction ht with
  | start =>
    constructor
    · show 1 ≤ max 1 (min config.maxTreeNodes.toNat 0xFFFFFFFF)
      omega
    · show max 1 (min config.maxTreeNodes.toNat 0xFFFFFFFF) ≤ _
      omega
  | sample limits execute source world ht ih =>
    -- A sample adds a node only while there is room for one.
    have hgrown := hasGrown_sample hle (ht.isLinked hle).1 (ht.isRegular hle) limits execute source
      world
    rw [hgrown.capacity_eq]
    exact ⟨hgrown.size_le_capacity ih.1, ih.2⟩
  | forget worker ht ih =>
    refine ⟨?_, ih.2⟩
    show (Array.map _ _).size ≤ _
    rw [Array.size_map]
    exact ih.1

/-- **A node that stands behind an action stays there**, whatever is sampled and forgotten. -/
theorem Later.keepsChildren (ht : Reachable q config t) (h : t.Later t') :
    t.KeepsChildren t' := by
  suffices hlater : Reachable q config t' ∧ t.KeepsChildren t' from hlater.2
  induction h with
  | same => exact ⟨ht, .refl t⟩
  | sample limits execute source world h ih =>
    obtain ⟨ht', hkeeps⟩ := ih
    have hgrown := hasGrown_sample hle (ht'.isLinked hle).1 (ht'.isRegular hle) limits execute
      source world
    exact ⟨ht'.sample limits execute source world, hkeeps.trans hgrown.keepsChildren⟩
  | forget worker h ih =>
    obtain ⟨ht', hkeeps⟩ := ih
    exact ⟨ht'.forget worker, hkeeps.trans (keepsChildren_forget _ worker)⟩

/-- **The shape of the search tree.**  In every tree that episodes and forgetting can build, the
nodes are shaped for the query and told apart by their tables.  A node behind an action stays there,
an episode adds one node at most, the nodes are no more than the capacity allows, and the preferred
order lists every table once. -/
theorem reachable_isShaped (ht : Reachable q config t) :
    t.IsShaped q ∧
    (∀ t', t.Later t' → t.KeepsChildren t') ∧
    (∀ (γ σ : Type) [RandomSource γ] (limits : Limits) (execute : Execute σ) (source : γ)
      (world : σ), (t.sample limits execute source world).2.tree.nrNodes ≤ t.nrNodes + 1) ∧
    t.nrNodes ≤ max 1 config.maxTreeNodes.toNat ∧
    t.bestOrder.IsPermutation q.nrTables := by
  obtain ⟨hfor, hlinked⟩ := ht.isLinked hle
  have hregular := ht.isRegular hle
  obtain ⟨hsize, hcapacity⟩ := ht.size_le hle
  refine ⟨⟨fun id n hn => ?_, hlinked.root, fun id n action child hn hchild => ?_,
    fun id id' n n' hid hid' => ?_⟩, fun t' h => h.keepsChildren hle ht, ?_, hsize.trans hcapacity,
    hfor.bestOrder_isPermutation hlinked hle⟩
  · exact (hfor.node id n hn).isShaped hle (hregular id n hn)
  · -- A child continues the path of its parent by the table of its slot.
    obtain ⟨c, hc, hpath⟩ := hlinked.child hn hchild
    exact ⟨_, c, (hregular id n hn).getElem?_actions hchild, hc, hpath⟩
  · exact hlinked.eq_of_path_eq hfor hregular hid hid'
  · intro γ σ _ limits execute source world
    exact (hasGrown_sample hle hfor hregular limits execute source world).size_le

end Reachable

/-! ### A sample tree -/

/-- The tree of the sample query after two episodes of which the first one is forgotten. -/
def sampled : OrderTree :=
  let execute : Execute Nat := fun _ count => (1, count + 1)
  let t := ((start .sample {}).sample Limits.sample execute (⟨0⟩ : SplitMix) 0).2.tree.forget 0
  (t.sample Limits.sample execute (⟨1⟩ : SplitMix) 1).2.tree

theorem reachable_sampled : Reachable .sample {} sampled :=
  .sample _ _ _ _ (.forget 0 (.sample _ _ _ _ .start))

theorem reachable_isShaped_sample : Query.sample.nrTables ≤ maxTables ∧
    Reachable .sample {} sampled ∧ sampled.IsShaped .sample ∧
      sampled.nrNodes ≤ max 1 1048576 ∧ sampled.bestOrder.IsPermutation 2 := by
  have hle : Query.sample.nrTables ≤ maxTables := by decide
  obtain ⟨hshaped, -, -, hsize, hbest⟩ := reachable_isShaped hle reachable_sampled
  exact ⟨hle, reachable_sampled, hshaped, hsize, hbest⟩

end OrderTree

end AdaptiveJoin
