import AdaptiveJoin.Proofs.Filter.Progress

/-!
# The accounts of the filter tree

Between episodes every action of a node waits untried, has been tried, or is pruned, and the visits
of a node are the sum of its tries (`FilterNode.IsSettled`).  In the course of an episode one action
of every node on the way is pending (`FilterNode.IsPending`): it is no longer untried, and recording
or pruning it settles the node again.

Going on in a node changes this node and later ones only, so the nodes on the way keep their pending
action (`FilterTree.Run.sampleNode_settles`).  Nothing is created behind a node of the same episode,
so an episode that prunes nothing creates one node at most (`FilterTree.Run.sampleNode_grows`).
-/

namespace AdaptiveJoin

namespace FilterNode

/-! ### Settled nodes -/

/-- The visits of a node are the sum of its tries, and every action is untried, tried or pruned, an
untried one neither of the others. -/
structure IsSettled (n : FilterNode) : Prop extends n.IsSized where
  visits_eq : n.visits = n.tries.sum
  nodup_untried : n.untried.toList.Nodup
  untried : ∀ a ∈ n.untried, n.triesOf a = 0 ∧ n.isPruned a = false
  settled : ∀ a < n.actions.size, a ∈ n.untried ∨ n.triesOf a ≠ 0 ∨ n.isPruned a = true

/-- An action of a node has been selected, and nothing has come of it yet. -/
structure IsPending (n : FilterNode) (action : Nat) : Prop extends n.IsSized where
  visits_eq : n.visits = n.tries.sum
  nodup_untried : n.untried.toList.Nodup
  untried : ∀ a ∈ n.untried, a ≠ action ∧ n.triesOf a = 0 ∧ n.isPruned a = false
  settled : ∀ a < n.actions.size, a ≠ action →
    a ∈ n.untried ∨ n.triesOf a ≠ 0 ∨ n.isPruned a = true
  lt : action < n.actions.size
  notPruned : n.isPruned action = false

variable {n : FilterNode} {action : Nat}

theorem isSettled_start (kind : Kind) (createdIn : Nat) (chosen : List Nat)
    (actions : Array FilterAction) : (start kind createdIn chosen actions).IsSettled where
  size_tries := Array.size_replicate
  size_pruned := Array.size_replicate
  untried_lt a ha := Array.mem_range.1 ha
  visits_eq := by simp [start]
  nodup_untried := by
    rw [start, Array.toList_range]
    exact List.nodup_range
  untried a ha := by
    have hlt : a < actions.size := Array.mem_range.1 ha
    simp [start, triesOf, isPruned, hlt]
  settled a ha := Or.inl (Array.mem_range.2 ha)

/-- There is nothing to account for where there is no node. -/
theorem isSettled_default : (default : FilterNode).IsSettled where
  size_tries := rfl
  size_pruned := rfl
  untried_lt a ha := absurd ha (Array.not_mem_empty a)
  visits_eq := rfl
  nodup_untried := List.nodup_nil
  untried a ha := absurd ha (Array.not_mem_empty a)
  settled a ha := absurd ha (Nat.not_lt_zero a)

/-- **Selecting an action leaves it pending**, or leaves the node settled if no action is left. -/
theorem IsSettled.select? {γ : Type} [RandomSource γ] (h : n.IsSettled) (exploration : Float)
    (g : γ) : ∃ action? untried g',
      n.select? exploration g = (action?, { n with untried := untried }, g') ∧
        action?.elim ({ n with untried := untried } : FilterNode).IsSettled
          ({ n with untried := untried } : FilterNode).IsPending := by
  have hwaiting {a : Nat} (ha : a ∈ n.untried) : a ∈ n.waiting :=
    mem_waiting.2 ⟨ha, (h.untried a ha).2⟩
  rcases n.select?_cases exploration g with
    ⟨action, untried, g', heq, hperm⟩ | ⟨hempty, hbest⟩
  · -- The selected action was untried, and the others still are.
    refine ⟨some action, untried, g', heq, ?_⟩
    have hnodup : (untried.push action).toList.Nodup := by
      refine (Array.perm_iff_toList_perm.1 hperm).nodup_iff.2 ?_
      rw [waiting, Array.toList_filter]
      exact h.nodup_untried.filter _
    rw [Array.toList_push, List.nodup_append] at hnodup
    have hold {a : Nat} (ha : a ∈ untried) : a ∈ n.untried :=
      (mem_waiting.1 (hperm.mem_iff.1 (Array.mem_push_of_mem action ha))).1
    obtain ⟨haction, hnot⟩ := mem_waiting.1 (hperm.mem_iff.1 Array.mem_push_self)
    exact
      { size_tries := h.size_tries
        size_pruned := h.size_pruned
        untried_lt := fun a ha => h.untried_lt a (hold ha)
        visits_eq := h.visits_eq
        nodup_untried := hnodup.1
        untried := fun a ha => ⟨hnodup.2.2 a (Array.mem_toList_iff.2 ha) action
          (List.mem_singleton_self action), h.untried a (hold ha)⟩
        settled := fun a ha hne => (h.settled a ha).imp_left fun hmem =>
          (Array.mem_push.1 (hperm.mem_iff.2 (hwaiting hmem))).resolve_right hne
        lt := h.untried_lt action haction
        notPruned := hnot }
  · -- Nothing was untried, so the selected action has been tried before.
    have hsettled (a : Nat) (ha : a < n.actions.size) : n.triesOf a ≠ 0 ∨ n.isPruned a = true := by
      refine (h.settled a ha).resolve_left fun hmem => ?_
      have := hwaiting hmem
      rw [hempty] at this
      exact Array.not_mem_empty a this
    have hnone (a : Nat) (ha : a ∈ (#[] : Array Nat)) : False := Array.not_mem_empty a ha
    have hrest : ({ n with untried := #[] } : FilterNode).IsSettled :=
      { size_tries := h.size_tries
        size_pruned := h.size_pruned
        untried_lt := fun a ha => (hnone a ha).elim
        visits_eq := h.visits_eq
        nodup_untried := List.nodup_nil
        untried := fun a ha => (hnone a ha).elim
        settled := fun a ha => Or.inr (hsettled a ha) }
    -- The best action is one that has not been pruned; without any, the node is settled as it is.
    rcases hbest with ⟨-, offset, g', heq⟩ | ⟨-, heq⟩
    · refine ⟨n.bestAction? exploration offset, #[], g', heq, ?_⟩
      cases haction : n.bestAction? exploration offset with
      | none => exact hrest
      | some action =>
        obtain ⟨hlt, hnot⟩ := bestAction?_eq_some haction
        exact
          { hrest with
            untried := fun a ha => (hnone a ha).elim
            settled := fun a ha _ => Or.inr (hsettled a ha)
            lt := hlt
            notPruned := hnot }
    · exact ⟨none, #[], g, heq, hrest⟩

/-! ### What becomes of the pending action -/

/-- The nodes behind the actions do not matter. -/
theorem IsPending.withChildren (h : n.IsPending action) (children : Array (Option Nat)) :
    ({ n with children := children } : FilterNode).IsPending action := { h with }

/-- One more try in the sum of the tries. -/
theorem sum_modify_succ {tries : Array Nat} {i : Nat} (h : i < tries.size) :
    (tries.modify i (· + 1)).sum = tries.sum + 1 := by
  rw [← Array.length_toList] at h
  have hsum := List.sum_take_add_sum_drop tries.toList i
  rw [List.drop_eq_getElem_cons h, List.sum_cons] at hsum
  rw [← Array.sum_toList, ← Array.sum_toList, Array.toList_modify,
    List.modify_eq_take_cons_drop h, List.sum_append, List.sum_cons]
  omega

/-- **Recording the pending action settles the node.** -/
theorem IsPending.record (h : n.IsPending action) (reward : Float) :
    (n.record action reward).IsSettled where
  toIsSized := h.toIsSized.record action reward
  visits_eq := by
    have hsum : (n.record action reward).tries.sum = n.tries.sum + 1 :=
      sum_modify_succ (h.size_tries ▸ h.lt)
    rw [hsum, ← h.visits_eq]
    rfl
  nodup_untried := h.nodup_untried
  untried a ha := by
    obtain ⟨hne, htries, hnot⟩ := h.untried a ha
    rw [triesOf_record, if_neg fun heq => hne heq.1.symm]
    exact ⟨htries, hnot⟩
  settled a ha := by
    rw [triesOf_record]
    rcases eq_or_ne a action with rfl | hne
    · -- The pending action has now been tried.
      rw [if_pos ⟨rfl, h.size_tries ▸ h.lt⟩]
      exact Or.inr (Or.inl (Nat.succ_ne_zero _))
    · rw [if_neg fun heq => hne heq.1.symm]
      exact h.settled a ha hne

/-- **Pruning the pending action settles the node.** -/
theorem IsPending.prune (h : n.IsPending action) : (n.prune action).IsSettled where
  size_tries := h.size_tries
  size_pruned := Array.size_setIfInBounds.trans h.size_pruned
  untried_lt := h.untried_lt
  visits_eq := h.visits_eq
  nodup_untried := h.nodup_untried
  untried a ha := by
    obtain ⟨hne, htries, hnot⟩ := h.untried a ha
    rw [isPruned_prune, if_neg fun heq => hne heq.1.symm]
    exact ⟨htries, hnot⟩
  settled a ha := by
    rw [isPruned_prune]
    rcases eq_or_ne a action with rfl | hne
    · -- The pending action is now pruned.
      rw [if_pos ⟨rfl, h.size_pruned ▸ h.lt⟩]
      exact Or.inr (Or.inr rfl)
    · rw [if_neg fun heq => hne heq.1.symm]
      exact h.settled a ha hne

/-- Pruning the pending action tells. -/
theorem IsPending.isPruned_prune_self (h : n.IsPending action) :
    (n.prune action).isPruned action = true := by
  rw [isPruned_prune, if_pos ⟨rfl, h.size_pruned ▸ h.lt⟩]

end FilterNode

namespace FilterTree

/-! ### Going on in a node -/

/-- What going on in a node leaves alone: the shape of the tree, the nodes before it, and what has
been pruned. -/
structure Frames (t : FilterTree) (indexed : List Bool) (id : Nat) (t' : FilterTree) : Prop where
  shaped : t'.IsShaped indexed
  same : ∀ i < id, t'.node i = t.node i
  keepsPruned : ∀ i action, (t.node i).isPruned action = true → (t'.node i).isPruned action = true

/-- The tree has its shape, and the nodes from a node on are settled. -/
structure IsSettledFrom (t : FilterTree) (indexed : List Bool) (id : Nat) : Prop where
  shaped : t.IsShaped indexed
  settled : ∀ i, id ≤ i → (t.node i).IsSettled

/-- The tree has its shape, an action of a node is pending, and the nodes behind it are settled. -/
structure IsPendingAt (t : FilterTree) (indexed : List Bool) (id action : Nat) : Prop where
  shaped : t.IsShaped indexed
  pending : (t.node id).IsPending action
  settled : ∀ i, id < i → (t.node i).IsSettled

/-- Some action has been pruned. -/
def HasPruned (t t' : FilterTree) : Prop :=
  ∃ id action, (t.node id).isPruned action = false ∧ (t'.node id).isPruned action = true

/-- A node of an episode with no node behind its actions: the episode creates none there. -/
structure IsFresh (t : FilterTree) (episode id : Nat) : Prop where
  createdIn_eq : (t.node id).createdIn = episode
  child?_eq_none : ∀ action, (t.node id).child? action = none

variable {t t' t'' : FilterTree} {indexed : List Bool} {id id' action episode : Nat}

theorem Frames.refl (h : t.IsShaped indexed) (id : Nat) : t.Frames indexed id t :=
  ⟨h, fun _ _ => rfl, fun _ _ h => h⟩

theorem Frames.trans (h : t.Frames indexed id t') (h' : t'.Frames indexed id t'') :
    t.Frames indexed id t'' where
  shaped := h'.shaped
  same i hi := (h'.same i hi).trans (h.same i hi)
  keepsPruned i action hpruned := h'.keepsPruned i action (h.keepsPruned i action hpruned)

theorem Frames.of_le (h : t.Frames indexed id' t') (hle : id ≤ id') : t.Frames indexed id t' :=
  ⟨h.shaped, fun i hi => h.same i (hi.trans_le hle), h.keepsPruned⟩

/-- What has been pruned later on has been pruned. -/
theorem HasPruned.of_frames (h : t'.HasPruned t'') (hframes : t.Frames indexed id t') :
    t.HasPruned t'' := by
  obtain ⟨i, action, hnot, hpruned⟩ := h
  refine ⟨i, action, Bool.eq_false_iff.2 fun hold => ?_, hpruned⟩
  rw [hframes.keepsPruned i action hold] at hnot
  exact Bool.noConfusion hnot

/-- What has been pruned stays so. -/
theorem HasPruned.frames (h : t.HasPruned t') (hframes : t'.Frames indexed id t'') :
    t.HasPruned t'' := by
  obtain ⟨i, action, hnot, hpruned⟩ := h
  exact ⟨i, action, hnot, hframes.keepsPruned i action hpruned⟩

/-! ### The steps of an attempt -/

/-- A node that is not there has no actions. -/
theorem node_of_le (h : t.nodes.size ≤ id) : t.node id = default := by
  rw [node, Array.getElem?_eq_none h, Option.getD_none]

theorem IsPendingAt.lt_size (h : t.IsPendingAt indexed id action) : id < t.nodes.size := by
  refine Nat.lt_of_not_le fun hle => ?_
  have hlt := h.pending.lt
  rw [node_of_le hle] at hlt
  exact Nat.not_lt_zero _ hlt

/-- Changing what a node has learned frames the nodes before it. -/
theorem frames_modifyNode (h : t.IsShaped indexed) (id : Nat) {f : FilterNode → FilterNode}
    (hoffer : ∀ n, (f n).offer = n.offer) (hchildren : ∀ n, (f n).children = n.children)
    (hpruned : ∀ n action, n.isPruned action = true → (f n).isPruned action = true) :
    t.Frames indexed id (t.modifyNode id f) where
  shaped := h.modifyNode id hoffer hchildren
  same i hi := by rw [node_modifyNode, if_neg fun heq => hi.ne' heq.1]
  keepsPruned i action hi := by
    rw [node_modifyNode]
    split
    · exact hpruned _ _ hi
    · exact hi

/-- Creating a node frames the nodes before the one behind whose action it is put. -/
theorem frames_expand? (h : t.IsShaped indexed) (hid : id < t.nodes.size)
    (hexpand : t.expand? id action episode = some t') : t.Frames indexed id t' := by
  have hshaped := h.expand? hexpand
  rcases expand?_cases hexpand with rfl | ⟨-, -, new, -, rfl⟩
  · exact .refl h id
  refine ⟨hshaped, fun i hi => ?_, fun i a hi => ?_⟩
  · rw [node_addNode, size_modifyNode, if_neg (by omega), node_modifyNode, if_neg (by omega)]
  · rw [node_addNode, size_modifyNode]
    split
    · -- A node that was not there has pruned nothing.
      rename_i hsize
      rw [node_of_le hsize.ge] at hi
      exact Bool.noConfusion hi
    · rw [node_modifyNode]
      split <;> exact hi

/-- Creating a node behind the pending action leaves it pending. -/
theorem IsPendingAt.expand? (h : t.IsPendingAt indexed id action)
    (hexpand : t.expand? id action episode = some t') : t'.IsPendingAt indexed id action := by
  have hshaped := h.shaped.expand? hexpand
  have hlt := h.lt_size
  rcases expand?_cases hexpand with rfl | ⟨-, -, new, hnew, rfl⟩
  · exact h
  refine ⟨hshaped, ?_, fun i hi => ?_⟩
  · rw [node_addNode, size_modifyNode, if_neg hlt.ne, node_modifyNode, if_pos ⟨rfl, hlt⟩]
    exact h.pending.withChildren _
  · rw [node_addNode]
    split
    · obtain ⟨kind, chosen, actions, rfl⟩ := childNode?_eq_start hnew
      exact FilterNode.isSettled_start _ _ _ _
    · rw [node_modifyNode, if_neg fun heq => hi.ne heq.1]
      exact h.settled i hi

/-- What settles the node with the pending action settles the nodes. -/
theorem IsPendingAt.modifyNode (h : t.IsPendingAt indexed id action) {f : FilterNode → FilterNode}
    (hoffer : ∀ n, (f n).offer = n.offer) (hchildren : ∀ n, (f n).children = n.children)
    (hsettled : (f (t.node id)).IsSettled) : (t.modifyNode id f).IsSettledFrom indexed id := by
  refine ⟨h.shaped.modifyNode id hoffer hchildren, fun i hi => ?_⟩
  rw [node_modifyNode]
  rcases hi.eq_or_lt with rfl | hlt
  · rw [if_pos ⟨rfl, h.lt_size⟩]
    exact hsettled
  · rw [if_neg fun heq => hlt.ne heq.1]
    exact h.settled i hlt

/-- **Recording the pending action settles the nodes.** -/
theorem IsPendingAt.record (h : t.IsPendingAt indexed id action) (reward : Float) :
    (t.modifyNode id (·.record action reward)).IsSettledFrom indexed id :=
  h.modifyNode (fun _ => rfl) (fun _ => rfl) (h.pending.record reward)

/-- **Pruning the pending action settles the nodes.** -/
theorem IsPendingAt.prune (h : t.IsPendingAt indexed id action) :
    (t.modifyNode id (·.prune action)).IsSettledFrom indexed id :=
  h.modifyNode (fun _ => rfl) (fun _ => rfl) h.pending.prune

theorem isPruned_prune_of_isPruned (n : FilterNode) (action : Nat) {action' : Nat}
    (h : n.isPruned action' = true) : (n.prune action).isPruned action' = true := by
  rw [FilterNode.isPruned_prune]
  split
  · rfl
  · exact h

theorem frames_record (h : t.IsShaped indexed) (id action : Nat) (reward : Float) :
    t.Frames indexed id (t.modifyNode id (·.record action reward)) :=
  frames_modifyNode h id (fun _ => rfl) (fun _ => rfl) fun _ _ hn => hn

theorem frames_prune (h : t.IsShaped indexed) (id action : Nat) :
    t.Frames indexed id (t.modifyNode id (·.prune action)) :=
  frames_modifyNode h id (fun _ => rfl) (fun _ => rfl) fun n _ hn =>
    isPruned_prune_of_isPruned n action hn

/-- Pruning the pending action is noticed. -/
theorem IsPendingAt.hasPruned (h : t.IsPendingAt indexed id action) :
    t.HasPruned (t.modifyNode id (·.prune action)) := by
  refine ⟨id, action, h.pending.notPruned, ?_⟩
  rw [node_modifyNode, if_pos ⟨rfl, h.lt_size⟩]
  exact h.pending.isPruned_prune_self

/-- What a node has learned does not matter for what an episode creates behind it. -/
theorem IsFresh.modifyNode (h : t.IsFresh episode id) {f : FilterNode → FilterNode}
    (hcreated : ∀ n, (f n).createdIn = n.createdIn) (hchildren : ∀ n, (f n).children = n.children) :
    (t.modifyNode id f).IsFresh episode id := by
  refine ⟨?_, fun action => ?_⟩ <;> rw [node_modifyNode]
  · split
    · rw [hcreated, h.createdIn_eq]
    · exact h.createdIn_eq
  · split
    · rw [FilterNode.child?, hchildren]
      exact h.child?_eq_none action
    · exact h.child?_eq_none action

/-- Nothing is created behind a node of the episode, and so there is room for it. -/
theorem IsFresh.expand?_eq (h : t.IsFresh episode id) : t.expand? id action episode = some t := by
  rw [expand?, if_pos (by rw [h.createdIn_eq, beq_self_eq_true, Bool.or_true])]

/-- Creating a node adds one node at most, and what then stands behind the action has been there or
is fresh. -/
theorem expand?_grows (hexpand : t.expand? id action episode = some t') :
    t'.nodes.size = t.nodes.size ∨ t'.nodes.size = t.nodes.size + 1 ∧
      ∀ child, (t'.node id).child? action = some child → t'.IsFresh episode child := by
  rcases expand?_cases hexpand with rfl | ⟨hnone, -, new, hchild, rfl⟩
  · exact Or.inl rfl
  refine Or.inr ⟨by rw [addNode, Array.size_push, size_modifyNode], fun child hbehind => ?_⟩
  obtain ⟨kind, chosen, actions, rfl⟩ := childNode?_eq_start hchild
  -- The only child behind the action is the node that has been added.
  have hnew : child = t.nodes.size := by
    rw [node_addNode, size_modifyNode] at hbehind
    split at hbehind
    · rw [FilterNode.child?_start] at hbehind
      exact absurd hbehind (by simp)
    rw [node_modifyNode] at hbehind
    split at hbehind
    · rcases FilterNode.child?_setIfInBounds hbehind with hold | ⟨-, hnew⟩
      · exact absurd (hnone.symm.trans hold) (by simp)
      · exact hnew
    · exact absurd (hnone.symm.trans hbehind) (by simp)
  subst hnew
  refine ⟨?_, fun action' => ?_⟩ <;> rw [node_addNode, size_modifyNode, if_pos rfl]
  · rfl
  · exact FilterNode.child?_start _ _ _ _ _

namespace Run

variable {γ : Type} [RandomSource γ] {r : Run γ}
  {descend : Nat → FilterChoice → Run γ → FilterAnswer × Run γ} {choice : FilterChoice}

/-- **Selecting leaves an action pending.** -/
theorem select?_isPendingAt (h : r.tree.IsSettledFrom indexed id) (choice : FilterChoice) :
    ∃ untried, let tree := r.tree.modifyNode id fun n => { n with untried := untried }
    r.tree.Frames indexed id tree ∧
      ((∃ r', r.select? id choice = (none, r') ∧ r'.tree = tree ∧
        tree.IsSettledFrom indexed id) ∨
      ∃ action branch r', r.select? id choice = (some (action, branch), r') ∧
        r'.tree = tree ∧ tree.IsPendingAt indexed id action) := by
  obtain ⟨action?, untried, source, hselect, hnode⟩ :=
    (h.settled id (Nat.le_refl id)).select? r.tree.config.explorationWeight r.source
  have hmodify : (r.tree.modifyNode id fun _ => { r.tree.node id with untried := untried }) =
      r.tree.modifyNode id fun n => { n with untried := untried } := modifyNode_congr rfl
  have hframes := frames_modifyNode h.shaped id (f := fun n => { n with untried := untried })
    (fun _ => rfl) (fun _ => rfl) fun _ _ hn => hn
  -- The node itself has the selected action taken out, and the later ones are as they were.
  have hself (hlt : id < r.tree.nodes.size) :
      (r.tree.modifyNode id fun n => { n with untried := untried }).node id =
        { r.tree.node id with untried := untried } := by
    rw [node_modifyNode, if_pos ⟨rfl, hlt⟩]
  have hlater (i : Nat) (hi : id < i) :
      ((r.tree.modifyNode id fun n => { n with untried := untried }).node i).IsSettled := by
    rw [node_modifyNode, if_neg fun heq => hi.ne heq.1]
    exact h.settled i hi.le
  refine ⟨untried, hframes, ?_⟩
  unfold Run.select?
  rw [hselect]
  dsimp only
  rw [hmodify]
  cases action? with
  | none =>
    refine Or.inl ⟨_, rfl, rfl, hframes.shaped, fun i hi => ?_⟩
    rcases hi.eq_or_lt with rfl | hlt
    · by_cases hsize : id < r.tree.nodes.size
      · rw [hself hsize]
        exact hnode
      · rw [node_of_le (by rw [size_modifyNode]; exact Nat.le_of_not_lt hsize)]
        exact FilterNode.isSettled_default
    · exact hlater i hlt
  | some action =>
    refine Or.inr ⟨action, _, _, rfl, rfl, hframes.shaped, ?_, hlater⟩
    have hsize : id < r.tree.nodes.size := by
      refine Nat.lt_of_not_le fun hle => ?_
      have hlt := hnode.lt
      rw [node_of_le hle] at hlt
      exact Nat.not_lt_zero _ hlt
    rw [hself hsize]
    exact hnode

/-! ### Settled trees -/

/-- A way to go on in a node leaves the nodes before it alone, and settles the others unless it has
no room. -/
def Settles (indexed : List Bool) (descend : Nat → FilterChoice → Run γ → FilterAnswer × Run γ) :
    Prop :=
  ∀ id choice r, r.tree.IsSettledFrom indexed id →
    r.tree.Frames indexed id (descend id choice r).2.tree ∧
      ((descend id choice r).1 ≠ .overflow →
        (descend id choice r).2.tree.IsSettledFrom indexed id)

omit [RandomSource γ] in
theorem tree_execute (r : Run γ) (choice : FilterChoice) : (r.execute choice).2.tree = r.tree := rfl

theorem tree_playout (r : Run γ) (id : Nat) (choice : FilterChoice) :
    (r.playout id choice).2.tree = r.tree := rfl

/-- Going on behind a pending action leaves it pending. -/
theorem follow_isPendingAt (hdescend : Settles indexed descend)
    (h : r.tree.IsPendingAt indexed id action) (choice : FilterChoice) :
    r.tree.Frames indexed (id + 1) (r.follow descend id action choice).2.tree ∧
      ((r.follow descend id action choice).1 ≠ .overflow →
        (r.follow descend id action choice).2.tree.IsPendingAt indexed id action) := by
  unfold follow
  split
  · rename_i child hchild
    have hlt := (h.shaped.child hchild).1
    obtain ⟨hframes, hsettled⟩ := hdescend child choice r
      ⟨h.shaped, fun i hi => h.settled i (hlt.trans_le hi)⟩
    refine ⟨hframes.of_le hlt, fun hroom => ⟨hframes.shaped, ?_, fun i hi => ?_⟩⟩
    · rw [hframes.same id hlt]
      exact h.pending
    · -- The child settles itself and what is behind it, and leaves the nodes before it alone.
      rcases Nat.lt_or_ge i child with hi' | hi'
      · rw [hframes.same i hi']
        exact h.settled i hi
      · exact (hsettled hroom).settled i hi'
  · rw [tree_playout]
    exact ⟨.refl h.shaped _, fun _ => h⟩

/-- Attempts settle the node and the later ones, unless there is no room. -/
theorem attempt_settles (hdescend : Settles indexed descend)
    (h : r.tree.IsSettledFrom indexed id) (episode : Nat) (choice : FilterChoice)
    (attempts : Nat) :
    r.tree.Frames indexed id (r.attempt descend episode id choice attempts).2.tree ∧
      ((r.attempt descend episode id choice attempts).1 ≠ .overflow →
        (r.attempt descend episode id choice attempts).2.tree.IsSettledFrom indexed id) := by
  induction attempts generalizing r with
  | zero => exact ⟨.refl h.shaped id, fun _ => h⟩
  | succ attempts ih =>
    obtain ⟨untried, hframes, ⟨r', hselect, htree, hsettled⟩ |
      ⟨action, branch, r', hselect, htree, hpending⟩⟩ := select?_isPendingAt h choice <;>
      unfold attempt <;> rw [hselect] <;> dsimp only
    · -- No action is left to select.
      exact ⟨htree ▸ hframes, fun _ => htree ▸ hsettled⟩
    rw [← htree] at hframes hpending
    cases hexpand : r'.tree.expand? id action episode with
    | none => exact ⟨hframes, fun hroom => absurd rfl hroom⟩
    | some tree =>
      dsimp only
      have hframes := hframes.trans (frames_expand? hpending.shaped hpending.lt_size hexpand)
      obtain ⟨hfollow, hpending⟩ := follow_isPendingAt (r := { r' with tree := tree }) hdescend
        (hpending.expand? hexpand) branch
      have hframes := hframes.trans (hfollow.of_le (Nat.le_succ id))
      generalize ({ r' with tree := tree } : Run γ).follow descend id action branch = result
        at hframes hpending ⊢
      obtain ⟨answer, r''⟩ := result
      cases answer with
      | decided reward =>
        -- The try is recorded, so the action is settled again.
        have hpending := hpending (by simp)
        exact ⟨hframes.trans (frames_record hpending.shaped id action reward),
          fun _ => hpending.record reward⟩
      | refused =>
        have hpending := hpending (by simp)
        -- The action is pruned, and the attempts that are left go on.
        obtain ⟨hrest, hsettled⟩ :=
          ih (r := { r'' with tree := r''.tree.modifyNode id (·.prune action) }) hpending.prune
        exact ⟨(hframes.trans (frames_prune hpending.shaped id action)).trans hrest, hsettled⟩
      | overflow => exact ⟨hframes, fun hroom => absurd rfl hroom⟩

/-- **Going on in a node leaves the nodes before it alone, and settles the others**, unless there is
no room. -/
theorem sampleNode_settles (indexed : List Bool) (episode levels : Nat) :
    Settles indexed (sampleNode (γ := γ) episode levels) := by
  induction levels with
  | zero => exact fun id choice r h => ⟨.refl h.shaped id, fun _ => h⟩
  | succ levels ih =>
    intro id choice r h
    unfold sampleNode
    dsimp only
    split
    · rw [tree_execute]
      exact ⟨.refl h.shaped id, fun _ => h⟩
    · exact attempt_settles ih h episode choice _

/-! ### Growing trees -/

/-- Attempts in a node of the episode create nothing. -/
theorem attempt_keepsFresh (h : r.tree.IsSettledFrom indexed id)
    (hfresh : r.tree.IsFresh episode id) (choice : FilterChoice) (attempts : Nat) :
    (r.attempt descend episode id choice attempts).2.tree.nodes.size = r.tree.nodes.size := by
  induction attempts generalizing r with
  | zero => rfl
  | succ attempts ih =>
    obtain ⟨untried, -, ⟨r', hselect, htree, -⟩ | ⟨action, branch, r', hselect, htree, hpending⟩⟩ :=
      select?_isPendingAt h choice <;> unfold attempt <;> rw [hselect] <;> dsimp only
    · rw [htree, size_modifyNode]
    -- Nothing is created behind the node, so the choice is completed at random.
    have hfresh := hfresh.modifyNode (f := fun n => { n with untried := untried })
      (fun _ => rfl) fun _ => rfl
    rw [← htree] at hfresh hpending
    have hsize : r'.tree.nodes.size = r.tree.nodes.size := by rw [htree, size_modifyNode]
    rw [hfresh.expand?_eq]
    dsimp only
    rw [follow, hfresh.child?_eq_none action]
    dsimp only
    have hplayout := tree_playout r' id branch
    generalize r'.playout id branch = result at hplayout ⊢
    obtain ⟨answer, r''⟩ := result
    dsimp only at hplayout
    cases answer with
    | decided reward => exact (size_modifyNode _ _ _).trans (hplayout ▸ hsize)
    | refused =>
      rw [← hplayout] at hfresh hpending
      have hfresh := hfresh.modifyNode (f := (·.prune action)) (fun _ => rfl) fun _ => rfl
      exact (ih hpending.prune hfresh).trans ((size_modifyNode _ _ _).trans (hplayout ▸ hsize))
    | overflow => exact hplayout ▸ hsize

/-- Nothing is created behind a node of the episode. -/
theorem sampleNode_keepsFresh (h : r.tree.IsSettledFrom indexed id)
    (hfresh : r.tree.IsFresh episode id) (choice : FilterChoice) (levels : Nat) :
    (sampleNode episode levels id choice r).2.tree.nodes.size = r.tree.nodes.size := by
  cases levels with
  | zero => rfl
  | succ levels =>
    unfold sampleNode
    dsimp only
    split
    · rfl
    · exact attempt_keepsFresh h hfresh choice _

/-- A way to go on in a node creates one node at most, unless it prunes an action. -/
def Grows (indexed : List Bool) (descend : Nat → FilterChoice → Run γ → FilterAnswer × Run γ) :
    Prop :=
  ∀ id choice r, r.tree.IsSettledFrom indexed id →
    (descend id choice r).2.tree.nodes.size ≤ r.tree.nodes.size + 1 ∨
      r.tree.HasPruned (descend id choice r).2.tree

/-- Going on behind a pending action creates no more than one node, the one behind the action
included. -/
theorem follow_grows {levels : Nat} (hdescend : Grows indexed (sampleNode (γ := γ) episode levels))
    {t : FilterTree} (hpending : t.IsPendingAt indexed id action)
    (hexpand : t.expand? id action episode = some r.tree) (choice : FilterChoice) :
    (r.follow (sampleNode episode levels) id action choice).2.tree.nodes.size ≤
        t.nodes.size + 1 ∨
      r.tree.HasPruned (r.follow (sampleNode episode levels) id action choice).2.tree := by
  have hpending := hpending.expand? hexpand
  have hsize := expand?_grows hexpand
  unfold follow
  split
  · rename_i child hchild
    have hlt := (hpending.shaped.child hchild).1
    have hchildren : r.tree.IsSettledFrom indexed child :=
      ⟨hpending.shaped, fun i hi => hpending.settled i (hlt.trans_le hi)⟩
    rcases hsize with hsize | ⟨hsize, hfresh⟩
    · rw [← hsize]
      exact hdescend child choice r hchildren
    · -- A new node is fresh, so nothing is created behind it.
      rw [sampleNode_keepsFresh hchildren (hfresh child hchild), hsize]
      exact Or.inl (Nat.le_refl _)
  · rw [tree_playout]
    -- The choice is completed at random, without a node of its own.
    rcases hsize with hsize | ⟨hsize, -⟩ <;> exact Or.inl (by omega)

/-- Attempts create one node at most, unless an action is pruned. -/
theorem attempt_grows {levels : Nat} (hdescend : Grows indexed (sampleNode (γ := γ) episode levels))
    (h : r.tree.IsSettledFrom indexed id) (choice : FilterChoice) (attempts : Nat) :
    (r.attempt (sampleNode episode levels) episode id choice attempts).2.tree.nodes.size ≤
        r.tree.nodes.size + 1 ∨
      r.tree.HasPruned
        (r.attempt (sampleNode episode levels) episode id choice attempts).2.tree := by
  have hsettles := sampleNode_settles (γ := γ) indexed episode levels
  cases attempts with
  | zero => exact Or.inl (Nat.le_succ _)
  | succ attempts =>
    obtain ⟨untried, hframes, ⟨r', hselect, htree, -⟩ |
      ⟨action, branch, r', hselect, htree, hpending⟩⟩ := select?_isPendingAt h choice <;>
      unfold attempt <;> rw [hselect] <;> dsimp only
    · rw [htree, size_modifyNode]
      exact Or.inl (Nat.le_succ _)
    have hsize : r'.tree.nodes.size = r.tree.nodes.size := by rw [htree, size_modifyNode]
    rw [← htree] at hframes hpending
    cases hexpand : r'.tree.expand? id action episode with
    | none => exact Or.inl (hsize.trans_le (Nat.le_succ _))
    | some tree =>
      dsimp only
      have hgrows := follow_grows (r := { r' with tree := tree }) hdescend hpending hexpand branch
      have hframes := hframes.trans (frames_expand? hpending.shaped hpending.lt_size hexpand)
      obtain ⟨hfollow, hpending⟩ := follow_isPendingAt (r := { r' with tree := tree }) hsettles
        (hpending.expand? hexpand) branch
      have hall := hframes.trans (hfollow.of_le (Nat.le_succ id))
      generalize ({ r' with tree := tree } : Run γ).follow (sampleNode episode levels) id action
        branch = result at hgrows hall hpending ⊢
      obtain ⟨answer, r''⟩ := result
      dsimp only at hgrows hall hpending
      rw [hsize] at hgrows
      cases answer with
      | decided reward =>
        have hrecord := frames_record hall.shaped id action reward
        refine hgrows.imp ((size_modifyNode _ _ _).trans_le ·) fun hpruned => ?_
        exact (hpruned.of_frames hframes).frames hrecord
      | refused =>
        -- The action that has failed is pruned, and stays so.
        have hpending := hpending (by simp)
        have hrest := attempt_settles hsettles
          (r := { r'' with tree := r''.tree.modifyNode id (·.prune action) }) hpending.prune episode
          choice attempts
        exact Or.inr ((hpending.hasPruned.of_frames hall).frames hrest.1)
      | overflow => exact hgrows.imp_right fun hpruned => hpruned.of_frames hframes

/-- **Going on in a node creates one node at most, unless it prunes an action.** -/
theorem sampleNode_grows (indexed : List Bool) (episode levels : Nat) :
    Grows indexed (sampleNode (γ := γ) episode levels) := by
  induction levels with
  | zero => exact fun id choice r h => Or.inl (Nat.le_succ _)
  | succ levels ih =>
    intro id choice r h
    unfold sampleNode
    dsimp only
    split
    · rw [tree_execute]
      exact Or.inl (Nat.le_succ _)
    · exact attempt_grows ih h choice _

end Run

end FilterTree

end AdaptiveJoin
