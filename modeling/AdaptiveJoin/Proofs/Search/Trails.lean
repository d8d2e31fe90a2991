import AdaptiveJoin.Proofs.Search.Shape

/-!
# The trail of an episode

An episode that is worth something counts a try of one action of each node on its way, and one that
is not counts none (`OrderTree.marks_sample`).  The actions it counts form a trail: each leads to
the node of the next one (`OrderTree.IsTrail`).  Every node stands behind one action at most, and
behind an earlier node (`OrderTree.IsArranged`), so a trail meets no node twice and comes to a node
through the action that the node stands behind (`OrderTree.IsTrail.countP_le_count`).

Whatever an episode does, the tries and rewards of the other workers stay as they are
(`OrderTree.KeepsOthers`).

All of this holds of queries of any number of tables.
-/

namespace AdaptiveJoin

/-- Whether an episode has been worth something: an order has been executed, and its reward is not
negative. -/
def IsWorth (reward? : Option Float) : Prop := ∃ reward, reward? = some reward ∧ ¬reward < 0

namespace OrderNode

/-- A node counts the tries of each of its actions for each worker. -/
structure IsSized (n : OrderNode) (workers : Nat) : Prop where
  size_stats : n.stats.size = workers
  size_tries : ∀ s ∈ n.stats, s.tries.size = n.actions.size

variable {n : OrderNode} {worker workers action : Nat}

theorem workerTries_eq {s : ActionStats} (h : n.stats[worker]? = some s) (action : Nat) :
    n.workerTries worker action = s.tries[action]?.getD 0 := by
  rw [workerTries, h, Option.map_some, Option.getD_some]

/-- Workers whose stats are the same have the same tries. -/
theorem workerTries_congr {n' : OrderNode} (h : n'.stats[worker]? = n.stats[worker]?)
    (action : Nat) : n'.workerTries worker action = n.workerTries worker action := by
  rw [workerTries, h, workerTries]

theorem workerTries_of_start {actions : Nat} (h : n.stats[worker]? = some (.start actions))
    (action : Nat) : n.workerTries worker action = 0 := by
  rw [workerTries_eq h, ActionStats.start, Array.getElem?_replicate]
  split <;> rfl

/-- Nobody else is counted. -/
theorem workerTries_of_le (h : n.stats.size ≤ worker) (action : Nat) :
    n.workerTries worker action = 0 := by
  rw [workerTries, Array.getElem?_eq_none h]
  rfl

theorem IsSized.record (h : n.IsSized workers) (worker action : Nat) (reward : Float) :
    (n.record worker action reward).IsSized workers := by
  refine ⟨Array.size_modify.trans h.size_stats, fun s hs => ?_⟩
  obtain ⟨i, hi, rfl⟩ := Array.getElem_of_mem hs
  simp only [OrderNode.record, Array.size_modify] at hi
  simp only [OrderNode.record, Array.getElem_modify]
  split
  · exact Array.size_modify.trans (h.size_tries _ (Array.getElem_mem hi))
  · exact h.size_tries _ (Array.getElem_mem hi)

theorem IsSized.forget (h : n.IsSized workers) (worker : Nat) :
    (n.forget worker).IsSized workers := by
  refine ⟨Array.size_setIfInBounds.trans h.size_stats, fun s hs => ?_⟩
  rcases Array.mem_or_eq_of_mem_setIfInBounds hs with hs | rfl
  · exact h.size_tries s hs
  · exact Array.size_replicate

/-- Recording counts one more try of the action, for the worker. -/
theorem IsSized.workerTries_record (h : n.IsSized workers) (hworker : worker < workers)
    (haction : action < n.actions.size) (reward : Float) (action' : Nat) :
    (n.record worker action reward).workerTries worker action' =
      n.workerTries worker action' + if action = action' then 1 else 0 := by
  have hlt : worker < n.stats.size := h.size_stats ▸ hworker
  have hstats : n.stats[worker]? = some n.stats[worker] := Array.getElem?_eq_getElem hlt
  have hrecord : (n.record worker action reward).stats[worker]? =
      some (n.stats[worker].record action reward) := by
    rw [OrderNode.record, Array.getElem?_modify, if_pos rfl, hstats, Option.map_some]
  have hsize := h.size_tries _ (Array.getElem_mem hlt)
  rw [workerTries_eq hrecord, workerTries_eq hstats, ActionStats.record, Array.getElem?_modify]
  split
  · rename_i heq
    subst heq
    rw [Array.getElem?_eq_getElem (by omega)]
    rfl
  · rfl

end OrderNode

namespace OrderTree

/-! ### Nodes behind actions -/

/-- The node behind an action of a node. -/
def child? (t : OrderTree) (id action : Nat) : Option Nat := (t.node? id).bind (·.child? action)

/-- The tries of an action of a node by a worker. -/
def triesOf (t : OrderTree) (worker id action : Nat) : Nat :=
  ((t.node? id).map (·.workerTries worker action)).getD 0

/-- A node has an action. -/
def HasAction (t : OrderTree) (id action : Nat) : Prop :=
  ∃ n, t.node? id = some n ∧ action < n.actions.size

/-- Every node counts the tries of its actions, and stands behind one action at most, which is one
of an earlier node.  Node 0 offers all tables. -/
structure IsArranged (t : OrderTree) : Prop where
  root : ∃ n, t.node? 0 = some n ∧ n.actions = (List.range t.query.nrTables).toArray
  sized : ∀ {id n}, t.node? id = some n → n.IsSized t.workers
  ascends : ∀ {id action child}, t.child? id action = some child →
    id < child ∧ child < t.nodes.size
  unique : ∀ {id action id' action' child}, t.child? id action = some child →
    t.child? id' action' = some child → id = id' ∧ action = action'

/-- The nodes still offer the same. -/
def KeepsOffers (t t' : OrderTree) : Prop :=
  ∀ id n, t.node? id = some n → ∃ n', t'.node? id = some n' ∧ n'.actions = n.actions ∧
    n'.recommended = n.recommended

/-- What the other workers know stays the same, and they know nothing of new nodes. -/
structure KeepsOthers (t : OrderTree) (worker : Nat) (t' : OrderTree) : Prop where
  old : ∀ {id n}, t.node? id = some n → ∃ n', t'.node? id = some n' ∧
    ∀ other ≠ worker, n'.stats[other]? = n.stats[other]?
  new : ∀ {id n'}, t.node? id = none → t'.node? id = some n' → ∀ other ≠ worker, ∀ s,
    n'.stats[other]? = some s → ∃ actions, s = .start actions

variable {t t' t'' : OrderTree} {worker id action : Nat}

theorem child?_eq_some {child : Nat} : t.child? id action = some child ↔
    ∃ n, t.node? id = some n ∧ n.child? action = some child := Option.bind_eq_some_iff

theorem triesOf_eq {n : OrderNode} (h : t.node? id = some n) (worker action : Nat) :
    t.triesOf worker id action = n.workerTries worker action := by
  rw [triesOf, h, Option.map_some, Option.getD_some]

theorem triesOf_of_none (h : t.node? id = none) (worker action : Nat) :
    t.triesOf worker id action = 0 := by
  rw [triesOf, h, Option.map_none, Option.getD_none]

theorem KeepsChildren.child? (h : t.KeepsChildren t') {child : Nat}
    (hchild : t.child? id action = some child) : t'.child? id action = some child := by
  obtain ⟨n, hn, hchild⟩ := child?_eq_some.1 hchild
  exact child?_eq_some.2 (h id n action child hn hchild)

theorem KeepsOffers.refl (t : OrderTree) : t.KeepsOffers t := fun _ n hn => ⟨n, hn, rfl, rfl⟩

theorem KeepsOffers.trans (h : t.KeepsOffers t') (h' : t'.KeepsOffers t'') :
    t.KeepsOffers t'' := by
  intro id n hn
  obtain ⟨n', hn', hactions, hrecommended⟩ := h id n hn
  obtain ⟨n'', hn'', hactions', hrecommended'⟩ := h' id n' hn'
  exact ⟨n'', hn'', hactions'.trans hactions, hrecommended'.trans hrecommended⟩

theorem KeepsOffers.hasAction (h : t.KeepsOffers t') (haction : t.HasAction id action) :
    t'.HasAction id action := by
  obtain ⟨n, hn, hlt⟩ := haction
  obtain ⟨n', hn', hactions, -⟩ := h id n hn
  exact ⟨n', hn', hactions ▸ hlt⟩

theorem KeepsOthers.refl (t : OrderTree) (worker : Nat) : t.KeepsOthers worker t :=
  ⟨fun hn => ⟨_, hn, fun _ _ => rfl⟩, fun hnone hn => absurd (hnone.symm.trans hn) (by simp)⟩

theorem KeepsOthers.trans (h : t.KeepsOthers worker t') (h' : t'.KeepsOthers worker t'') :
    t.KeepsOthers worker t'' := by
  constructor
  · intro id n hn
    obtain ⟨n', hn', hstats⟩ := h.old hn
    obtain ⟨n'', hn'', hstats'⟩ := h'.old hn'
    exact ⟨n'', hn'', fun other hother => (hstats' other hother).trans (hstats other hother)⟩
  · intro id n'' hnone hn'' other hother s hs
    cases hn' : t'.node? id with
    | none => exact h'.new hn' hn'' other hother s hs
    | some n' =>
      obtain ⟨m, hm, hstats⟩ := h'.old hn'
      obtain rfl := Option.some.inj (hn''.symm.trans hm)
      exact h.new hnone hn' other hother s (hstats other hother ▸ hs)

/-- The other workers have the tries that they had. -/
theorem KeepsOthers.triesOf_eq (h : t.KeepsOthers worker t') {other : Nat} (hother : other ≠ worker)
    (id action : Nat) : t'.triesOf other id action = t.triesOf other id action := by
  cases hn : t.node? id with
  | some n =>
    obtain ⟨n', hn', hstats⟩ := h.old hn
    rw [OrderTree.triesOf_eq hn', OrderTree.triesOf_eq hn,
      OrderNode.workerTries_congr (hstats other hother)]
  | none =>
    -- The tries of a new node are those of a node nobody has tried.
    rw [triesOf_of_none hn]
    cases hn' : t'.node? id with
    | none => exact triesOf_of_none hn' _ _
    | some n' =>
      rw [OrderTree.triesOf_eq hn']
      cases hs : n'.stats[other]? with
      | none => exact OrderNode.workerTries_of_le (Array.getElem?_eq_none_iff.1 hs) _
      | some s =>
        obtain ⟨actions, rfl⟩ := h.new hn hn' other hother s hs
        exact OrderNode.workerTries_of_start hs _

/-! ### Steps of an episode -/

/-- Nodes that keep their children. -/
theorem child?_of_map {f : Nat → OrderNode → OrderNode}
    (hf : ∀ id n, (f id n).children = n.children)
    (hnodes : ∀ id, t'.node? id = (t.node? id).map (f id)) (id action : Nat) :
    t'.child? id action = t.child? id action := by
  rw [child?, child?, hnodes]
  cases t.node? id with
  | none => rfl
  | some n =>
    show (f id n).child? action = n.child? action
    rw [OrderNode.child?, OrderNode.child?, hf]

theorem child?_record (t : OrderTree) (id worker action : Nat) (reward : Float)
    (id' action' : Nat) :
    (t.record id worker action reward).child? id' action' = t.child? id' action' :=
  child?_of_map (fun id' n => by split <;> rfl) (node?_record t id worker action reward) id' action'

theorem child?_forget (t : OrderTree) (worker id action : Nat) :
    (t.forget worker).child? id action = t.child? id action :=
  child?_of_map (f := fun _ n => n.forget worker) (fun _ _ => rfl) (node?_forget t worker) id action

/-- Changing the counts of nodes leaves a tree arranged. -/
theorem IsArranged.of_map (h : t.IsArranged) {f : Nat → OrderNode → OrderNode}
    (hf : ∀ id n, (f id n).actions = n.actions ∧ (f id n).children = n.children ∧
      (n.IsSized t.workers → (f id n).IsSized t.workers))
    (hnodes : ∀ id, t'.node? id = (t.node? id).map (f id)) (hquery : t'.query = t.query)
    (hworkers : t'.workers = t.workers) (hsize : t'.nodes.size = t.nodes.size) :
    t'.IsArranged := by
  have hchild := child?_of_map (fun id n => (hf id n).2.1) hnodes
  constructor
  · -- Roots, sizes and slots are read off the old nodes.
    obtain ⟨n, hn, hactions⟩ := h.root
    exact ⟨f 0 n, by rw [hnodes, hn, Option.map_some], by rw [(hf 0 n).1, hactions, hquery]⟩
  · intro id n' hn'
    rw [hnodes] at hn'
    obtain ⟨n, hn, rfl⟩ := Option.map_eq_some_iff.1 hn'
    exact hworkers ▸ (hf id n).2.2 (h.sized hn)
  · intro id action child hc
    rw [hchild] at hc
    exact hsize ▸ h.ascends hc
  · intro id action id' action' child hc hc'
    rw [hchild] at hc hc'
    exact h.unique hc hc'

theorem IsArranged.record (h : t.IsArranged) (id worker action : Nat) (reward : Float) :
    (t.record id worker action reward).IsArranged := by
  refine h.of_map (fun id' n => ?_) (node?_record t id worker action reward) rfl rfl
    Array.size_modify
  split
  · exact ⟨rfl, rfl, fun hn => hn.record worker action reward⟩
  · exact ⟨rfl, rfl, fun hn => hn⟩

theorem IsArranged.forget (h : t.IsArranged) (worker : Nat) : (t.forget worker).IsArranged :=
  h.of_map (f := fun _ n => n.forget worker)
    (fun _ _ => ⟨rfl, rfl, fun hn => hn.forget worker⟩) (node?_forget t worker) rfl rfl
    Array.size_map

/-- A new node counts no tries. -/
theorem isSized_makeNode (t : OrderTree) (path : Array Nat) :
    (t.makeNode path).IsSized t.workers := by
  refine ⟨Array.size_replicate, fun s hs => ?_⟩
  rw [(Array.mem_replicate.1 hs).2]
  exact Array.size_replicate.trans List.size_toArray.symm

theorem workerTries_makeNode (t : OrderTree) (path : Array Nat) (worker action : Nat) :
    (t.makeNode path).workerTries worker action = 0 := by
  cases hs : (t.makeNode path).stats[worker]? with
  | none => exact OrderNode.workerTries_of_le (Array.getElem?_eq_none_iff.1 hs) action
  | some s =>
    obtain rfl := (Array.mem_replicate.1 (Array.mem_of_getElem? hs)).2
    exact OrderNode.workerTries_of_start hs action

theorem query_expand (t : OrderTree) (id action : Nat) :
    (t.expand id action).query = t.query ∧ (t.expand id action).workers = t.workers := by
  unfold expand
  split
  · exact ⟨rfl, rfl⟩
  · dsimp only
    split <;> exact ⟨rfl, rfl⟩

theorem size_le_expand (t : OrderTree) (id action : Nat) :
    t.nodes.size ≤ (t.expand id action).nodes.size := by
  unfold expand
  split
  · exact Nat.le_refl _
  · dsimp only
    split
    · exact Nat.le_refl _
    · rw [Array.size_push, Array.size_modify]
      exact Nat.le_succ _

/-- What stands behind an action after a node is added. -/
theorem child?_expand {id' action' child : Nat}
    (h : (t.expand id action).child? id' action' = some child) :
    t.child? id' action' = some child ∨
      id' = id ∧ action' = action ∧ child = t.nodes.size ∧ id < t.nodes.size := by
  rcases expand_cases t id action with heq | ⟨n, hn, -, hnodes⟩
  · exact Or.inl (heq ▸ h)
  obtain ⟨n', hn', hchild⟩ := child?_eq_some.1 h
  rw [hnodes] at hn'
  split at hn'
  · obtain rfl := Option.some.inj hn'
    rw [child?_makeNode] at hchild
    -- The node added has no children.
    exact absurd hchild (by simp)
  obtain ⟨m, hm, rfl⟩ := Option.map_eq_some_iff.1 hn'
  split at hchild
  · -- The parent has one child more.
    rename_i hid
    subst hid
    rw [OrderNode.child?, Array.getElem?_setIfInBounds] at hchild
    split at hchild
    · rename_i haction
      split at hchild
      · exact Or.inr ⟨rfl, haction.symm, (Option.some.inj hchild).symm,
          (Array.getElem?_eq_some_iff.1 hn).1⟩
      · exact absurd hchild (by simp)
    · exact Or.inl (child?_eq_some.2 ⟨m, hm, hchild⟩)
  · exact Or.inl (child?_eq_some.2 ⟨m, hm, hchild⟩)

/-- **A new node stands behind one action, of an earlier node.** -/
theorem IsArranged.expand (h : t.IsArranged) (id action : Nat) :
    (t.expand id action).IsArranged := by
  rcases expand_cases t id action with heq | ⟨n, hn, -, hnodes⟩
  · rwa [heq]
  obtain ⟨hquery, hworkers⟩ := query_expand t id action
  have hnew : (t.expand id action).node? t.nodes.size =
      some (t.makeNode (n.path.push (n.tableOf action))) := by rw [hnodes, if_pos rfl]
  have hsize : t.nodes.size < (t.expand id action).nodes.size :=
    (Array.getElem?_eq_some_iff.1 hnew).1
  constructor
  · obtain ⟨root, hroot, hactions⟩ := h.root
    have hpos : 0 ≠ t.nodes.size := ((Array.getElem?_eq_some_iff.1 hroot).1).ne
    refine ⟨_, by rw [hnodes, if_neg hpos, hroot]; rfl, ?_⟩
    rw [hquery, ← hactions]
    split <;> rfl
  · intro id' n' hn'
    rw [hworkers]
    rw [hnodes] at hn'
    split at hn'
    · obtain rfl := Option.some.inj hn'
      exact isSized_makeNode t _
    · obtain ⟨m, hm, rfl⟩ := Option.map_eq_some_iff.1 hn'
      obtain ⟨hstats, htries⟩ := h.sized hm
      split <;> exact ⟨hstats, htries⟩
  · intro id' action' child hchild
    rcases child?_expand hchild with hold | ⟨rfl, rfl, rfl, hlt⟩
    · have := h.ascends hold
      omega
    · -- The new node comes after its parent.
      exact ⟨hlt, hsize⟩
  · intro id₁ action₁ id₂ action₂ child hchild₁ hchild₂
    rcases child?_expand hchild₁ with hold₁ | ⟨rfl, rfl, rfl, -⟩ <;>
      rcases child?_expand hchild₂ with hold₂ | ⟨rfl, rfl, hnew₂, -⟩
    · exact h.unique hold₁ hold₂
    · -- An old node does not stand where the new one does.
      have := h.ascends hold₁
      omega
    · have := h.ascends hold₂
      omega
    · exact ⟨rfl, rfl⟩

theorem isArranged_start (q : Query) (config : Config) : (start q config).IsArranged := by
  have hchild (id action : Nat) : (start q config).child? id action = none := by
    cases hnone : (start q config).child? id action with
    | none => rfl
    | some child =>
      obtain ⟨n, hn, hc⟩ := child?_eq_some.1 hnone
      obtain rfl := Array.mem_singleton.1 (Array.mem_of_getElem? hn)
      rw [child?_makeNode] at hc
      exact absurd hc (by simp)
  constructor
  · refine ⟨_, rfl, ?_⟩
    -- No table has been joined at the root.
    show (List.toArray ((List.range q.nrTables).filter fun table =>
      !TableSet.contains ∅ table)) = (List.range q.nrTables).toArray
    rw [List.filter_eq_self.2 fun table _ => by rw [TableSet.contains_empty]; rfl]
  · intro id n hn
    obtain rfl := Array.mem_singleton.1 (Array.mem_of_getElem? hn)
    exact isSized_makeNode _ _
  · intro id action child hc
    rw [hchild] at hc
    exact absurd hc (by simp)
  · intro id action id' action' child hc
    rw [hchild] at hc
    exact absurd hc (by simp)

theorem keepsOffers_expand (t : OrderTree) (id action : Nat) :
    t.KeepsOffers (t.expand id action) := by
  intro id' m hm
  rcases expand_cases t id action with heq | ⟨n, -, -, hnodes⟩
  · rw [heq]
    exact ⟨m, hm, rfl, rfl⟩
  · have hne : id' ≠ t.nodes.size := by
      rintro rfl
      rw [node?_size] at hm
      exact absurd hm (by simp)
    refine ⟨_, by rw [hnodes, if_neg hne, hm]; rfl, ?_⟩
    split <;> exact ⟨rfl, rfl⟩

theorem keepsOffers_record (t : OrderTree) (id worker action : Nat) (reward : Float) :
    t.KeepsOffers (t.record id worker action reward) := by
  intro id' n hn
  refine ⟨_, by rw [node?_record, hn]; rfl, ?_⟩
  split <;> exact ⟨rfl, rfl⟩

theorem KeepsStats.keepsOthers (h : t.KeepsStats t') (worker : Nat) : t.KeepsOthers worker t' := by
  constructor
  · intro id n hn
    obtain ⟨n', hn', hstats⟩ := h.old hn
    exact ⟨n', hn', fun _ _ => by rw [hstats]⟩
  · intro id n' hnone hn' other _ s hs
    obtain ⟨workers, actions, hstats⟩ := h.new hnone hn'
    rw [hstats] at hs
    exact ⟨actions, (Array.mem_replicate.1 (Array.mem_of_getElem? hs)).2⟩

/-- If nothing is recorded, every worker has the tries that it had. -/
theorem KeepsStats.triesOf_eq (h : t.KeepsStats t') (worker id action : Nat) :
    t'.triesOf worker id action = t.triesOf worker id action :=
  -- The worker is one of those other than some worker.
  (h.keepsOthers (worker + 1)).triesOf_eq (Nat.succ_ne_self worker).symm id action

/-- Recording changes what one worker knows. -/
theorem keepsOthers_record (t : OrderTree) (id worker action : Nat) (reward : Float) :
    t.KeepsOthers worker (t.record id worker action reward) := by
  constructor
  · intro id' n hn
    refine ⟨_, by rw [node?_record, hn]; rfl, fun other hother => ?_⟩
    split
    · show (n.stats.modify worker _)[other]? = _
      rw [Array.getElem?_modify, if_neg hother.symm]
    · rfl
  · intro id' n' hnone hn'
    rw [node?_record, hnone] at hn'
    exact absurd hn' (by simp)

/-- **Forgetting changes what one worker knows.** -/
theorem keepsOthers_forget (t : OrderTree) (worker : Nat) :
    t.KeepsOthers worker (t.forget worker) := by
  constructor
  · intro id n hn
    refine ⟨_, by rw [node?_forget, hn]; rfl, fun other hother => ?_⟩
    show (n.stats.setIfInBounds worker _)[other]? = _
    rw [Array.getElem?_setIfInBounds_ne hother.symm]
  · intro id n' hnone hn'
    rw [node?_forget, hnone] at hn'
    exact absurd hn' (by simp)

/-! ### Trails -/

/-- The actions of a trail from a node on: each leads to the node of the next one. -/
inductive IsTrail (t : OrderTree) : Nat → List (Nat × Nat) → Prop where
  | nil (id : Nat) : t.IsTrail id []
  | last {id action : Nat} (haction : t.HasAction id action) : t.IsTrail id [(id, action)]
  | cons {id action child : Nat} {rest : List (Nat × Nat)} (haction : t.HasAction id action)
      (hchild : t.child? id action = some child) (hrest : t.IsTrail child rest) :
      t.IsTrail id ((id, action) :: rest)

variable {trail : List (Nat × Nat)}

/-- A trail stays one. -/
theorem IsTrail.mono (h : t.IsTrail id trail) (hchildren : t.KeepsChildren t')
    (hoffers : t.KeepsOffers t') : t'.IsTrail id trail := by
  induction h with
  | nil id => exact .nil id
  | last haction => exact .last (hoffers.hasAction haction)
  | cons haction hchild _ ih =>
    exact .cons (hoffers.hasAction haction) (hchildren.child? hchild) ih

/-- A trail goes on to later nodes. -/
theorem IsTrail.le (h : t.IsTrail id trail) (ht : t.IsArranged) : ∀ e ∈ trail, id ≤ e.1 := by
  induction h with
  | nil id => exact fun e he => absurd he List.not_mem_nil
  | last haction =>
    intro e he
    rw [List.mem_singleton.1 he]
  | cons haction hchild _ ih =>
    intro e he
    rcases List.mem_cons.1 he with rfl | he
    · exact Nat.le_refl _
    · exact (ht.ascends hchild).1.le.trans (ih e he)

theorem IsTrail.hasAction (h : t.IsTrail id trail) : ∀ e ∈ trail, t.HasAction e.1 e.2 := by
  induction h with
  | nil id => exact fun e he => absurd he List.not_mem_nil
  | last haction =>
    intro e he
    rwa [List.mem_singleton.1 he]
  | cons haction _ _ ih =>
    intro e he
    rcases List.mem_cons.1 he with rfl | he
    · exact haction
    · exact ih e he

/-- A trail from a later node does not meet an earlier one. -/
theorem IsTrail.countP_eq_zero (h : t.IsTrail id trail) (ht : t.IsArranged) {id' : Nat}
    (hlt : id' < id) : trail.countP (·.1 = id') = 0 := by
  refine List.countP_eq_zero.2 fun e he heq => ?_
  have := h.le ht e he
  have := of_decide_eq_true heq
  omega

/-- **A trail starts with one action of its first node.** -/
theorem IsTrail.countP_start (h : t.IsTrail id trail) (ht : t.IsArranged) :
    trail.countP (·.1 = id) = if trail = [] then 0 else 1 := by
  cases h with
  | nil => rfl
  | last =>
    rw [if_neg (List.cons_ne_nil _ _), List.countP_cons_of_pos (by simp), List.countP_nil]
  | cons haction hchild hrest =>
    rw [if_neg (List.cons_ne_nil _ _), List.countP_cons_of_pos (by simp),
      hrest.countP_eq_zero ht (ht.ascends hchild).1]

/-- **A trail comes to a node through the action that the node stands behind.** -/
theorem IsTrail.countP_le_count (h : t.IsTrail id trail) (ht : t.IsArranged)
    {parent action child : Nat} (hchild : t.child? parent action = some child) (hne : child ≠ id) :
    trail.countP (·.1 = child) ≤ trail.count (parent, action) := by
  induction h with
  | nil id => exact Nat.zero_le _
  | last haction =>
    rw [List.countP_cons_of_neg (by simpa using hne.symm), List.countP_nil]
    exact Nat.zero_le _
  | @cons id action' child' rest haction hchild' hrest ih =>
    rw [List.countP_cons_of_neg (by simpa using hne.symm), List.count_cons]
    rcases eq_or_ne child child' with rfl | hne'
    · -- The node is where the trail goes on, and no other action leads there.
      obtain ⟨rfl, rfl⟩ := ht.unique hchild hchild'
      rw [hrest.countP_start ht, if_pos (beq_self_eq_true _)]
      split <;> omega
    · exact (ih hne').trans (Nat.le_add_right _ _)

/-! ### What an episode counts -/

/-- One more try of each action of a trail has been counted for a worker. -/
structure Marks (t : OrderTree) (worker : Nat) (trail : List (Nat × Nat)) (t' : OrderTree) :
    Prop where
  isArranged : t'.IsArranged
  query_eq : t'.query = t.query
  workers_eq : t'.workers = t.workers
  keepsChildren : t.KeepsChildren t'
  keepsOffers : t.KeepsOffers t'
  keepsOthers : t.KeepsOthers worker t'
  size_le : t.nodes.size ≤ t'.nodes.size
  /-- Only new nodes are put behind actions. -/
  child : ∀ {id action child}, t'.child? id action = some child →
    t.child? id action = some child ∨ t.nodes.size ≤ child
  tries : worker < t.workers → ∀ id action,
    t'.triesOf worker id action = t.triesOf worker id action + trail.count (id, action)

theorem Marks.refl (h : t.IsArranged) (worker : Nat) : t.Marks worker [] t where
  isArranged := h
  query_eq := rfl
  workers_eq := rfl
  keepsChildren := .refl t
  keepsOffers := .refl t
  keepsOthers := .refl t worker
  size_le := Nat.le_refl _
  child := Or.inl
  tries _ _ _ := rfl

/-- Nothing has been counted before. -/
theorem Marks.trans (h : t.Marks worker [] t') (h' : t'.Marks worker trail t'') :
    t.Marks worker trail t'' where
  isArranged := h'.isArranged
  query_eq := h'.query_eq.trans h.query_eq
  workers_eq := h'.workers_eq.trans h.workers_eq
  keepsChildren := h.keepsChildren.trans h'.keepsChildren
  keepsOffers := h.keepsOffers.trans h'.keepsOffers
  keepsOthers := h.keepsOthers.trans h'.keepsOthers
  size_le := h.size_le.trans h'.size_le
  child hchild := by
    rcases h'.child hchild with hchild | hnew
    · exact h.child hchild
    · exact Or.inr (h.size_le.trans hnew)
  tries hworker id action := by
    rw [h'.tries (h.workers_eq ▸ hworker), h.tries hworker, List.count_nil, Nat.add_zero]

/-- Nothing is counted for a new node. -/
theorem marks_expand (h : t.IsArranged) (worker id action : Nat) :
    t.Marks worker [] (t.expand id action) where
  isArranged := h.expand id action
  query_eq := (query_expand t id action).1
  workers_eq := (query_expand t id action).2
  keepsChildren := keepsChildren_expand t id action
  keepsOffers := keepsOffers_expand t id action
  keepsOthers := (keepsStats_expand t id action).keepsOthers worker
  size_le := size_le_expand t id action
  child hchild := (child?_expand hchild).imp_right fun hnew => hnew.2.2.1.ge
  tries _ _ _ := (keepsStats_expand t id action).triesOf_eq _ _ _

/-- **Recording counts one more action.** -/
theorem Marks.record (h : t.Marks worker trail t') (haction : t'.HasAction id action)
    (reward : Float) :
    t.Marks worker ((id, action) :: trail) (t'.record id worker action reward) where
  isArranged := h.isArranged.record id worker action reward
  query_eq := h.query_eq
  workers_eq := h.workers_eq
  keepsChildren := h.keepsChildren.trans (keepsChildren_record _ _ _ _ _)
  keepsOffers := h.keepsOffers.trans (keepsOffers_record _ _ _ _ _)
  keepsOthers := h.keepsOthers.trans (keepsOthers_record _ _ _ _ _)
  size_le := h.size_le.trans_eq Array.size_modify.symm
  child hchild := h.child (child?_record t' _ _ _ _ _ _ ▸ hchild)
  tries hworker id' action' := by
    rw [List.count_cons, ← Nat.add_assoc, ← h.tries hworker]
    obtain ⟨n, hn, hlt⟩ := haction
    have hsized := h.isArranged.sized hn
    rw [h.workers_eq] at hsized
    rw [OrderTree.triesOf, node?_record]
    -- The tries of the action grow by one, which is the new entry of the trail.
    rcases eq_or_ne id id' with rfl | hne
    · rw [hn, Option.map_some, Option.map_some, Option.getD_some, if_pos rfl,
        hsized.workerTries_record hworker hlt, triesOf_eq hn]
      simp
    · rw [Option.map_map, if_neg (by simp [hne]), Nat.add_zero, OrderTree.triesOf]
      simp only [if_neg hne]
      rfl

/-! ### Episodes -/

namespace Run

variable {γ σ : Type} {r : Run γ σ} {execute : Execute σ}
  {descend : Nat → Run γ σ → Option Float × Run γ σ} {limits : Limits} {n : OrderNode}

/-- What an episode does from a node on: it counts a trail, an empty one unless it is worth
something. -/
def MarksTrails (limits : Limits) (descend : Nat → Run γ σ → Option Float × Run γ σ) : Prop :=
  ∀ id r, r.tree.IsArranged → ∃ trail,
    r.tree.Marks limits.worker trail (descend id r).2.tree ∧
      (descend id r).2.tree.IsTrail id trail ∧ (¬IsWorth (descend id r).1 → trail = [])

/-- A trail from a node on has been counted, an empty one exactly if nothing was worth it. -/
def MarksTrail (t : OrderTree) (worker id : Nat) (result : Option Float × Run γ σ) : Prop :=
  ∃ trail, t.Marks worker trail result.2.tree ∧ result.2.tree.IsTrail id trail ∧
    (trail = [] ↔ ¬IsWorth result.1)

/-- A trail from the node behind an action on has been counted, an empty one if nothing was worth
it. -/
def MarksBehind (t : OrderTree) (worker id action : Nat) (result : Option Float × Run γ σ) : Prop :=
  ∃ rest, t.Marks worker rest result.2.tree ∧
    (rest = [] ∨ ∃ child, result.2.tree.child? id action = some child ∧
      result.2.tree.IsTrail child rest) ∧ (¬IsWorth result.1 → rest = [])

variable [RandomSource γ]

/-- A random completion leaves the tree alone. -/
theorem tree_playout (r : Run γ σ) (execute : Execute σ) (limits : Limits) (n : OrderNode)
    (first : Nat) : (r.playout execute limits n first).2.tree = r.tree := by
  unfold playout
  dsimp only
  split <;> rfl

omit [RandomSource γ] in
theorem marks_expand (h : r.tree.IsArranged) (worker id : Nat) (n : OrderNode) (action : Nat) :
    r.tree.Marks worker [] (r.expand id n action).tree := by
  unfold expand
  split
  · exact OrderTree.marks_expand h worker id action
  · exact .refl h worker

/-- Behind an action an episode counts what it counts in the node behind it, and nothing if it goes
on at random. -/
theorem follow_marks (hdescend : MarksTrails limits descend) (h : r.tree.IsArranged)
    (execute : Execute σ) (id : Nat) (n : OrderNode) (action : Nat) :
    MarksBehind r.tree limits.worker id action (r.follow execute descend limits id n action) := by
  have hexpand := marks_expand h limits.worker id n action
  unfold follow
  dsimp only
  split
  · rename_i child hchild
    obtain ⟨rest, hmarks, htrail, hworth⟩ := hdescend child _ hexpand.isArranged
    exact ⟨rest, hexpand.trans hmarks, Or.inr ⟨child, hmarks.keepsChildren.child? hchild, htrail⟩,
      hworth⟩
  · refine ⟨[], ?_, Or.inl rfl, fun _ => rfl⟩
    rw [tree_playout]
    exact hexpand

omit [RandomSource γ] in
/-- What happens behind an action counts nothing at the node itself. -/
theorem MarksBehind.node?_eq {result : Option Float × Run γ σ} {worker : Nat}
    (h : MarksBehind r.tree worker id action result) (hr : r.tree.IsArranged)
    (hn : r.tree.node? id = some n) : ∃ m, result.2.tree.node? id = some m ∧
      m.actions = n.actions ∧ m.recommended = n.recommended ∧
        ∀ a, m.workerTries worker a = n.workerTries worker a := by
  obtain ⟨rest, hmarks, htrail, -⟩ := h
  obtain ⟨m, hm, hactions, hrecommended⟩ := hmarks.keepsOffers id n hn
  refine ⟨m, hm, hactions, hrecommended, fun a => ?_⟩
  rcases Nat.lt_or_ge worker r.tree.workers with hworker | hworker
  · have hzero : rest.count (id, a) = 0 := by
      rcases htrail with rfl | ⟨child, hchild, htrail⟩
      · rfl
      · -- The rest of the trail lies behind the action, in later nodes.
        refine List.count_eq_zero.2 fun hmem => ?_
        have hle : child ≤ id := htrail.le hmarks.isArranged _ hmem
        exact absurd hle (Nat.not_le.2 (hmarks.isArranged.ascends hchild).1)
    rw [← triesOf_eq hm, hmarks.tries hworker, triesOf_eq hn, hzero, Nat.add_zero]
  · have hstats := (hmarks.isArranged.sized hm).size_stats.trans hmarks.workers_eq
    rw [OrderNode.workerTries_of_le (hstats.trans_le hworker),
      OrderNode.workerTries_of_le ((hr.sized hn).size_stats.trans_le hworker)]

/-- **Attempts in a node count a trail from the node on**, which is empty exactly if none of them is
worth something. -/
theorem attempt_marks (hdescend : MarksTrails limits descend) (h : r.tree.IsArranged)
    (hnode : ∃ n', r.tree.node? id = some n') (attempts : Nat) (excluded : TableSet) :
    MarksTrail r.tree limits.worker id
      (r.attempt execute descend limits id n attempts excluded) := by
  have hnone : ¬IsWorth none := fun ⟨_, h, _⟩ => absurd h (by simp)
  induction attempts generalizing r n excluded with
  | zero => exact ⟨[], .refl h _, .nil id, iff_of_true rfl hnone⟩
  | succ attempts ih =>
    obtain ⟨n', hn'⟩ := hnode
    unfold attempt
    rw [hn', Option.getD_some]
    dsimp only
    split
    · exact ⟨[], .refl h _, .nil id, iff_of_true rfl hnone⟩
    rename_i action source hselect
    have hlt : action < n'.actions.size :=
      lt_of_mem_candidates (mem_of_select? (congrArg Prod.fst hselect))
    have hbehind := follow_marks (r := { r with source := source }) hdescend h execute id n' action
    obtain ⟨rest, hmarks, htrail, hworth⟩ := hbehind
    generalize Run.follow execute descend limits id n' action { r with source := source } = result
      at hmarks htrail hworth ⊢
    obtain ⟨m, hm, hactions, -⟩ := hmarks.keepsOffers id n' hn'
    have haction : result.2.tree.HasAction id action := ⟨m, hm, hactions ▸ hlt⟩
    -- An attempt that is not worth anything has counted nothing, so the next one starts afresh.
    have hagain (hnot : ¬IsWorth result.1) (excluded : TableSet) :
        MarksTrail r.tree limits.worker id
          (result.2.attempt execute descend limits id n' attempts excluded) := by
      obtain rfl := hworth hnot
      obtain ⟨trail, hmarks', htrail', hiff⟩ := ih hmarks.isArranged ⟨m, hm⟩ excluded
      exact ⟨trail, hmarks.trans hmarks', htrail', hiff⟩
    split
    · rename_i heq
      exact hagain (heq ▸ hnone) _
    · rename_i reward heq
      split
      · rename_i hneg
        refine hagain ?_ _
        rw [heq]
        rintro ⟨reward', hsome, hnot⟩
        exact hnot (Option.some.inj hsome ▸ hneg)
      · rename_i hnot
        have hrecord := hmarks.record haction reward
        refine ⟨(id, action) :: rest, hrecord, ?_, iff_of_false (List.cons_ne_nil _ _)
          (not_not.2 ⟨reward, rfl, hnot⟩)⟩
        have hchildren := keepsChildren_record result.2.tree id limits.worker action reward
        have hoffers := keepsOffers_record result.2.tree id limits.worker action reward
        rcases htrail with rfl | ⟨child, hchild, htrail⟩
        · exact .last (hoffers.hasAction haction)
        · exact .cons (hoffers.hasAction haction) (hchildren.child? hchild)
            (htrail.mono hchildren hoffers)

/-- **Going on in a node counts a trail from the node on**, an empty one unless it is worth
something. -/
theorem sampleNode_marks (execute : Execute σ) (limits : Limits) (levels : Nat) :
    MarksTrails limits (sampleNode (γ := γ) execute limits levels) := by
  induction levels with
  | zero => exact fun id r h => ⟨[], .refl h _, .nil id, fun _ => rfl⟩
  | succ levels ih =>
    intro id r h
    unfold sampleNode
    split
    · exact ⟨[], .refl h _, .nil id, fun _ => rfl⟩
    · rename_i n hn
      split
      · exact ⟨[], .refl h _, .nil id, fun _ => rfl⟩
      · obtain ⟨trail, hmarks, htrail, hiff⟩ :=
          attempt_marks (n := n) ih h ⟨n, hn⟩ (n.actions.size + 1) ∅
        exact ⟨trail, hmarks, htrail, hiff.2⟩

end Run

variable {γ σ : Type} [RandomSource γ]

/-- **An episode counts a trail from the root on**, which is empty exactly if the episode is not
worth anything.  The query has a table, so that there is something to choose at the root. -/
theorem marks_sample (h : t.IsArranged) (hpos : 0 < t.query.nrTables) (limits : Limits)
    (execute : Execute σ) (source : γ) (world : σ) :
    Run.MarksTrail t limits.worker 0 (t.sample limits execute source world) := by
  obtain ⟨root, hroot, hactions⟩ := h.root
  have hleaf : root.isLeaf = false := by
    rw [OrderNode.isLeaf, hactions, Array.isEmpty_eq_false_iff, ne_eq, ← Array.size_eq_zero_iff]
    simpa using hpos.ne'
  unfold sample Run.sampleNode
  dsimp only
  rw [hroot]
  dsimp only
  rw [if_neg (by rw [hleaf]; decide)]
  exact Run.attempt_marks (r := ⟨t, source, true, world⟩) (Run.sampleNode_marks execute limits _) h
    ⟨root, hroot⟩ _ _

end OrderTree

end AdaptiveJoin
