import AdaptiveJoin.Proofs.Search.Sampling

/-!
# Growing trees

A tree only grows: adding nodes, recording tries and forgetting them leave every node at its place
with its tables (`OrderTree.Grows`).  Behind an action always stands the node that lists the table
of the action as well (`OrderTree.IsLinked`).  So both hold of all trees that episodes can build
(`OrderTree.Reachable`), whatever is drawn and whatever the executed orders are worth.
-/

namespace AdaptiveJoin

namespace OrderTree

/-- Node 0 lists no table, and the node behind an action lists the table of the action after the
ones before it. -/
structure IsLinked (t : OrderTree) : Prop where
  root : ∃ n, t.node? 0 = some n ∧ n.path = #[]
  child : ∀ {id n action child}, t.node? id = some n → n.child? action = some child →
    ∃ n', t.node? child = some n' ∧ n'.path = n.path.push (n.tableOf action)

/-- All nodes of a tree are still there, with their tables. -/
def Grows (t t' : OrderTree) : Prop :=
  ∀ id n, t.node? id = some n → ∃ n', t'.node? id = some n' ∧ n'.path = n.path

/-- No tries and rewards are recorded: those of a node are still the same; new nodes have none. -/
structure KeepsStats (t t' : OrderTree) : Prop where
  old : ∀ {id n}, t.node? id = some n → ∃ n', t'.node? id = some n' ∧ n'.stats = n.stats
  new : ∀ {id n'}, t.node? id = none → t'.node? id = some n' →
    ∃ workers actions, n'.stats = Array.replicate workers (.start actions)

/-- The trees that episodes of a query can build. -/
inductive Reachable (q : Query) (config : Config) : OrderTree → Prop where
  | start : Reachable q config (.start q config)
  | sample {γ σ : Type} [RandomSource γ] {t : OrderTree} (limits : Limits) (execute : Execute σ)
      (source : γ) (world : σ) (ht : Reachable q config t) :
      Reachable q config (t.sample limits execute source world).2.tree
  | forget {t : OrderTree} (worker : Nat) (ht : Reachable q config t) :
      Reachable q config (t.forget worker)

variable {t t' t'' : OrderTree} {q : Query}

/-! ### Nodes after a change -/

theorem node?_record (t : OrderTree) (id worker action : Nat) (reward : Float) (id' : Nat) :
    (t.record id worker action reward).node? id' =
      (t.node? id').map fun n => if id = id' then n.record worker action reward else n := by
  simp only [record, node?, Array.getElem?_modify]
  split
  · rfl
  · exact Option.map_id'.symm

theorem node?_forget (t : OrderTree) (worker id : Nat) :
    (t.forget worker).node? id = (t.node? id).map (·.forget worker) := by
  simp only [forget, node?, Array.getElem?_map]

/-- Adding a node changes nothing, or puts the node at the end and behind its action, which had
none. -/
theorem expand_cases (t : OrderTree) (id action : Nat) : t.expand id action = t ∨
    ∃ n, t.node? id = some n ∧ n.child? action = none ∧ ∀ id', (t.expand id action).node? id' =
      if id' = t.nodes.size then some (t.makeNode (n.path.push (n.tableOf action)))
      else (t.node? id').map fun n =>
        if id = id' then
          { n with children := n.children.setIfInBounds action (some t.nodes.size) }
        else n := by
  unfold expand
  cases hnode : t.node? id with
  | none => exact Or.inl rfl
  | some n =>
    dsimp only
    split
    · exact Or.inl rfl
    · rename_i hfree
      -- There is a place for a child and room for a node.
      rw [Bool.not_eq_true, Bool.or_eq_false_iff, Option.isSome_eq_false_iff,
        Option.isNone_iff_eq_none] at hfree
      refine Or.inr ⟨n, rfl, hfree.1, fun id' => ?_⟩
      simp only [node?, Array.getElem?_push, Array.size_modify, Array.getElem?_modify]
      split
      · rfl
      · split
        · rfl
        · exact Option.map_id'.symm

/-- A new node has no children. -/
theorem child?_makeNode (t : OrderTree) (path : Array Nat) (action : Nat) :
    (t.makeNode path).child? action = none := by
  unfold OrderNode.child? makeNode
  rw [Array.getElem?_replicate]
  split <;> rfl

theorem node?_size (t : OrderTree) : t.node? t.nodes.size = none :=
  Array.getElem?_eq_none (Nat.le_refl _)

/-! ### Growth -/

theorem Grows.refl (t : OrderTree) : t.Grows t := fun _ n hn => ⟨n, hn, rfl⟩

theorem Grows.trans (h : t.Grows t') (h' : t'.Grows t'') : t.Grows t'' := by
  intro id n hn
  obtain ⟨n', hn', hpath⟩ := h id n hn
  obtain ⟨n'', hn'', hpath'⟩ := h' id n' hn'
  exact ⟨n'', hn'', hpath'.trans hpath⟩

theorem grows_record (t : OrderTree) (id worker action : Nat) (reward : Float) :
    t.Grows (t.record id worker action reward) := by
  intro id' n hn
  refine ⟨_, by rw [node?_record, hn]; rfl, ?_⟩
  split <;> rfl

theorem grows_expand (t : OrderTree) (id action : Nat) : t.Grows (t.expand id action) := by
  intro id' n' hn'
  rcases expand_cases t id action with heq | ⟨n, -, -, hnodes⟩
  · rw [heq]
    exact ⟨n', hn', rfl⟩
  · have hne : id' ≠ t.nodes.size := by
      rintro rfl
      rw [node?_size] at hn'
      exact absurd hn' (by simp)
    refine ⟨_, by rw [hnodes, if_neg hne, hn']; rfl, ?_⟩
    split <;> rfl

/-! ### Links -/

theorem isLinked_start (q : Query) (config : Config) : (start q config).IsLinked := by
  refine ⟨⟨_, rfl, rfl⟩, fun {id n action child} hn hchild => ?_⟩
  obtain rfl := Array.mem_singleton.1 (Array.mem_of_getElem? hn)
  rw [child?_makeNode] at hchild
  exact absurd hchild (by simp)

/-- Links stay if the nodes keep their tables, their actions and their children. -/
theorem IsLinked.of_map (h : t.IsLinked) {f : Nat → OrderNode → OrderNode}
    (hf : ∀ id n, (f id n).path = n.path ∧ (f id n).actions = n.actions ∧
      (f id n).children = n.children)
    (hnodes : ∀ id, t'.node? id = (t.node? id).map (f id)) : t'.IsLinked := by
  constructor
  · obtain ⟨n, hn, hpath⟩ := h.root
    exact ⟨f 0 n, by rw [hnodes, hn, Option.map_some], (hf 0 n).1.trans hpath⟩
  · intro id n' action child hn' hchild
    rw [hnodes] at hn'
    obtain ⟨n, hn, rfl⟩ := Option.map_eq_some_iff.1 hn'
    obtain ⟨hpath, hactions, hchildren⟩ := hf id n
    rw [OrderNode.child?, hchildren] at hchild
    obtain ⟨m, hm, hmpath⟩ := h.child hn hchild
    refine ⟨f child m, by rw [hnodes, hm, Option.map_some], ?_⟩
    rw [(hf child m).1, hmpath, hpath, OrderNode.tableOf, OrderNode.tableOf, hactions]

theorem IsLinked.record (h : t.IsLinked) (id worker action : Nat) (reward : Float) :
    (t.record id worker action reward).IsLinked :=
  h.of_map (fun id' n => by split <;> exact ⟨rfl, rfl, rfl⟩)
    (node?_record t id worker action reward)

theorem IsLinked.forget (h : t.IsLinked) (worker : Nat) : (t.forget worker).IsLinked :=
  h.of_map (f := fun _ n => n.forget worker) (fun _ _ => ⟨rfl, rfl, rfl⟩) (node?_forget t worker)

/-- **An added node lists the table of its action as well.** -/
theorem IsLinked.expand (h : t.IsLinked) (id action : Nat) : (t.expand id action).IsLinked := by
  have hgrows := grows_expand t id action
  rcases expand_cases t id action with heq | ⟨n, hn, -, hnodes⟩
  · rwa [heq]
  constructor
  · obtain ⟨root, hroot, hpath⟩ := h.root
    obtain ⟨root', hroot', hpath'⟩ := hgrows 0 root hroot
    exact ⟨root', hroot', hpath'.trans hpath⟩
  · intro id' n' action' child hn' hchild
    have hold : ∀ {m}, t.node? id' = some m → m.child? action' = some child →
        ∃ c, (t.expand id action).node? child = some c ∧
          c.path = m.path.push (m.tableOf action') := by
      intro m hm hc
      obtain ⟨c, hc, hpath⟩ := h.child hm hc
      obtain ⟨c', hc', hpath'⟩ := hgrows child c hc
      exact ⟨c', hc', hpath'.trans hpath⟩
    rw [hnodes] at hn'
    split at hn'
    · -- The added node has no children yet.
      obtain rfl := Option.some.inj hn'
      rw [child?_makeNode] at hchild
      exact absurd hchild (by simp)
    · obtain ⟨m, hm, rfl⟩ := Option.map_eq_some_iff.1 hn'
      -- Only the parent has a new child, and it is the node that has been added.
      by_cases hid : id = id'
      · subst hid
        obtain rfl := Option.some.inj (hn.symm.trans hm)
        rw [if_pos rfl] at hchild ⊢
        rw [OrderNode.child?, Array.getElem?_setIfInBounds] at hchild
        split at hchild
        · rename_i haction
          subst haction
          split at hchild
          · obtain rfl := Option.some.inj hchild
            exact ⟨_, by rw [hnodes, if_pos rfl], rfl⟩
          · exact absurd hchild (by simp)
        · have hlinked := hold hm hchild
          exact hlinked
      · rw [if_neg hid] at hchild ⊢
        exact hold hm hchild

/-! ### What is recorded -/

theorem KeepsStats.refl (t : OrderTree) : t.KeepsStats t :=
  ⟨fun hn => ⟨_, hn, rfl⟩, fun hnone hn => absurd (hnone.symm.trans hn) (by simp)⟩

theorem KeepsStats.trans (h : t.KeepsStats t') (h' : t'.KeepsStats t'') : t.KeepsStats t'' := by
  constructor
  · intro id n hn
    obtain ⟨n', hn', hstats⟩ := h.old hn
    obtain ⟨n'', hn'', hstats'⟩ := h'.old hn'
    exact ⟨n'', hn'', hstats'.trans hstats⟩
  · intro id n'' hnone hn''
    cases hn' : t'.node? id with
    | none => exact h'.new hn' hn''
    | some n' =>
      obtain ⟨workers, actions, hstats⟩ := h.new hnone hn'
      obtain ⟨m, hm, hstats'⟩ := h'.old hn'
      obtain rfl := Option.some.inj (hn''.symm.trans hm)
      exact ⟨workers, actions, hstats'.trans hstats⟩

/-- A node is added without tries. -/
theorem keepsStats_expand (t : OrderTree) (id action : Nat) :
    t.KeepsStats (t.expand id action) := by
  rcases expand_cases t id action with heq | ⟨n, -, -, hnodes⟩
  · rw [heq]
    exact .refl t
  constructor
  · -- An old node keeps its statistics; the parent only gets a child.
    intro id' m hm
    have hne : id' ≠ t.nodes.size := by
      rintro rfl
      rw [node?_size] at hm
      exact absurd hm (by simp)
    refine ⟨_, by rw [hnodes, if_neg hne, hm]; rfl, ?_⟩
    split <;> rfl
  · -- The only new node has no statistics yet.
    intro id' m hnone hm
    rw [hnodes, hnone] at hm
    split at hm
    · obtain rfl := Option.some.inj hm
      exact ⟨_, _, rfl⟩
    · exact absurd hm (by simp)

/-! ### Episodes -/

/-- **An episode lets the tree grow**, from a tree before it on. -/
theorem grows_invariant {γ σ : Type} [RandomSource γ] (hle : q.nrTables ≤ maxTables)
    (run : Execute σ) (t : OrderTree) : Run.Invariant q run fun r : Run γ σ =>
      r.tree.IsFor q ∧ r.tree.IsLinked ∧ t.Grows r.tree where
  isFor hr := hr.1
  draw hr _ := hr
  execute hr _ _ := hr
  expand hr _ _ _ haction :=
    ⟨hr.1.expand hle haction, hr.2.1.expand _ _, hr.2.2.trans (grows_expand _ _ _)⟩
  record hr _ _ _ _ :=
    ⟨hr.1.record _ _ _ _, hr.2.1.record _ _ _ _, hr.2.2.trans (grows_record _ _ _ _ _)⟩

/-- **The trees that episodes can build are linked trees for the query.** -/
theorem Reachable.isLinked {config : Config} (hle : q.nrTables ≤ maxTables)
    (h : Reachable q config t) : t.IsFor q ∧ t.IsLinked := by
  induction h with
  | start => exact ⟨isFor_start q config, isLinked_start q config⟩
  | sample limits execute source world ht ih =>
    have hgrown := (grows_invariant hle execute _).sample hle limits source world
      ⟨ih.1, ih.2, .refl _⟩
    exact ⟨hgrown.1, hgrown.2.1⟩
  | forget worker ht ih => exact ⟨ih.1.forget worker, ih.2.forget worker⟩

end OrderTree

end AdaptiveJoin
