import AdaptiveJoin.Proofs.Filter.Episodes
import Mathlib.Data.List.Perm.Basic

/-!
# The shape of the filter tree

A node of the filter tree offers what is left to choose (`FilterNode.offer`), and never changes its
offer.  The node behind an action offers what is left after the action (`FilterTree.IsShaped`), so
the actions from the root on choose different predicates.

* `FilterTree.IsShaped.expand?`: creating a node keeps the shape.
* `FilterTree.IsShaped.bestOrder_perm`: the preferred order lists every predicate once.
-/

namespace AdaptiveJoin

namespace FilterNode

/-- What a node offers to choose. -/
def offer (n : FilterNode) : Kind × List Nat × Array FilterAction := (n.kind, n.chosen, n.actions)

/-- A node has chosen different predicates and offers others. -/
structure IsPartial (n : FilterNode) (nrPredicates : Nat) : Prop where
  nodup : n.chosen.Nodup
  lt : ∀ p ∈ n.chosen, p < nrPredicates
  offered : ∀ p, .evaluate p ∈ n.actions ∨ .indexOn p ∈ n.actions →
    p < nrPredicates ∧ p ∉ n.chosen

variable {n n' : FilterNode} {nrPredicates : Nat}

theorem kind_eq_of_offer_eq (h : n.offer = n'.offer) : n.kind = n'.kind := (Prod.mk.inj h).1

theorem chosen_eq_of_offer_eq (h : n.offer = n'.offer) : n.chosen = n'.chosen :=
  (Prod.mk.inj (Prod.mk.inj h).2).1

theorem actions_eq_of_offer_eq (h : n.offer = n'.offer) : n.actions = n'.actions :=
  (Prod.mk.inj (Prod.mk.inj h).2).2

theorem IsPartial.congr (h : n.IsPartial nrPredicates) (hoffer : n'.offer = n.offer) :
    n'.IsPartial nrPredicates := by
  obtain ⟨hnodup, hlt, hoffered⟩ := h
  rw [← chosen_eq_of_offer_eq hoffer] at hnodup hlt hoffered
  rw [← actions_eq_of_offer_eq hoffer] at hoffered
  exact ⟨hnodup, hlt, hoffered⟩

/-- Choosing one more of the offered predicates. -/
theorem IsPartial.append (h : n.IsPartial nrPredicates) {p : Nat}
    (hp : .evaluate p ∈ n.actions ∨ .indexOn p ∈ n.actions) :
    (n.chosen ++ [p]).Nodup ∧ ∀ p' ∈ n.chosen ++ [p], p' < nrPredicates := by
  obtain ⟨hlt, hnew⟩ := h.offered p hp
  constructor
  · refine h.nodup.append (List.nodup_singleton p) fun p' hmem heq => hnew ?_
    rwa [← List.mem_singleton.1 heq]
  · intro p' hmem
    rcases List.mem_append.1 hmem with hmem | hmem
    · exact h.lt p' hmem
    · rwa [List.mem_singleton.1 hmem]

/-- A new node has no node behind its actions. -/
theorem child?_start (kind : Kind) (createdIn : Nat) (chosen : List Nat)
    (actions : Array FilterAction) (action : Nat) :
    (start kind createdIn chosen actions).child? action = none := by
  unfold child? start
  rw [Array.getElem?_replicate]
  split <;> rfl

/-- Putting a node behind an action. -/
theorem child?_setIfInBounds {n : FilterNode} {action new action' child : Nat}
    (h : ({ n with children := n.children.setIfInBounds action (some new) } :
      FilterNode).child? action' = some child) :
    n.child? action' = some child ∨ action' = action ∧ child = new := by
  unfold child? at h
  rw [Array.getElem?_setIfInBounds] at h
  split at h
  · rename_i heq
    split at h
    · exact Or.inr ⟨heq.symm, (Option.some.inj h).symm⟩
    · exact absurd h (by simp)
  · exact Or.inl h

end FilterNode

namespace FilterTree

variable {t t' : FilterTree} {indexed : List Bool} {id i : Nat}

/-! ### Nodes after a change -/

/-- A tree with one more node. -/
def addNode (t : FilterTree) (n : FilterNode) : FilterTree := { t with nodes := t.nodes.push n }

@[simp]
theorem size_modifyNode (t : FilterTree) (id : Nat) (f : FilterNode → FilterNode) :
    (t.modifyNode id f).nodes.size = t.nodes.size := by
  simp [modifyNode]

theorem node_modifyNode (t : FilterTree) (id : Nat) (f : FilterNode → FilterNode) (i : Nat) :
    (t.modifyNode id f).node i = if id = i ∧ i < t.nodes.size then f (t.node i) else t.node i := by
  unfold node modifyNode
  rw [Array.getElem?_modify]
  by_cases heq : id = i
  · subst heq
    by_cases hlt : id < t.nodes.size
    · simp [hlt]
    · simp [hlt]
  · simp [heq]

theorem node_addNode (t : FilterTree) (n : FilterNode) (i : Nat) :
    (t.addNode n).node i = if i = t.nodes.size then n else t.node i := by
  unfold node addNode
  rw [Array.getElem?_push]
  split <;> rfl

/-- Expanding changes nothing, or puts a new node behind an action that had none. -/
theorem expand?_cases {id action episode : Nat} (h : t.expand? id action episode = some t') :
    t' = t ∨ (t.node id).child? action = none ∧ (t.node id).createdIn ≠ episode ∧
      ∃ new, t.childNode? (t.node id) ((t.node id).actions[action]?.getD default) episode =
          some new ∧
        t' = (t.modifyNode id fun n =>
          { n with children := n.children.setIfInBounds action (some t.nodes.size) }).addNode
            new := by
  unfold expand? at h
  dsimp only at h
  split at h
  · exact Or.inl (Option.some.inj h).symm
  · rename_i hfree
    rw [Bool.not_eq_true, Bool.or_eq_false_iff, Option.isSome_eq_false_iff,
      Option.isNone_iff_eq_none, beq_eq_false_iff_ne] at hfree
    obtain ⟨new, hnew, rfl⟩ := Option.map_eq_some_iff.1 h
    exact Or.inr ⟨hfree.1, hfree.2, new, hnew, rfl⟩

/-! ### New nodes -/

variable {parent parent' n : FilterNode} {action : FilterAction} {kind : FilterNode.Kind}
  {episode episode' : Nat} {chosen : List Nat}

/-- What the node behind an action offers depends on what has been chosen and on the action. -/
theorem offer_childNode? (hn : t'.nrPredicates = t.nrPredicates) (hc : t'.config = t.config)
    (hchosen : parent'.chosen = parent.chosen) :
    (t'.childNode? parent' action episode').map FilterNode.offer =
      (t.childNode? parent action episode).map FilterNode.offer := by
  have hpredicate (kind : FilterNode.Kind) (chosen : List Nat) :
      (t'.predicateNode? kind episode' chosen).map FilterNode.offer =
        (t.predicateNode? kind episode chosen).map FilterNode.offer := by
    unfold predicateNode? batchNode?
    rw [hn, hc]
    split
    · split
      · split <;> rfl
      · rfl
    · rfl
  unfold childNode?
  rw [hchosen]
  split
  · exact hpredicate _ _
  · exact hpredicate _ _
  · rfl
  · rfl

/-- A node that chooses among predicates, or among batches, or nothing any more. -/
theorem predicateNode?_cases (h : t.predicateNode? kind episode chosen = some n) :
    (((List.range t.nrPredicates).filter fun p => !chosen.contains p) ≠ [] ∧
      n = .start kind episode chosen
        (((List.range t.nrPredicates).filter fun p => !chosen.contains p).map
          FilterAction.evaluate).toArray) ∨
    ((List.range t.nrPredicates).filter fun p => !chosen.contains p) = [] ∧
      (n = .start .rowParallel episode chosen (batchActions t.config) ∨
        n = .start .leaf episode chosen #[]) := by
  unfold predicateNode? batchNode? at h
  split at h
  · rename_i hnone
    refine Or.inr ⟨hnone, ?_⟩
    split at h
    · split at h
      · exact Or.inl (Option.some.inj h).symm
      · exact absurd h nofun
    · exact Or.inr (Option.some.inj h).symm
  · rename_i hsome
    exact Or.inl ⟨hsome, (Option.some.inj h).symm⟩

/-- The predicates chosen at a new node. -/
theorem chosen_predicateNode? (h : t.predicateNode? kind episode chosen = some n) :
    n.chosen = chosen := by
  rcases predicateNode?_cases h with ⟨-, rfl⟩ | ⟨-, rfl | rfl⟩ <;> rfl

/-- The actions of a new node have not been tried. -/
theorem childNode?_eq_start (h : t.childNode? parent action episode = some n) :
    ∃ kind chosen actions, n = .start kind episode chosen actions := by
  have hpredicate {kind : FilterNode.Kind} {chosen : List Nat}
      (h : t.predicateNode? kind episode chosen = some n) :
      ∃ kind chosen actions, n = .start kind episode chosen actions := by
    rcases predicateNode?_cases h with ⟨-, rfl⟩ | ⟨-, rfl | rfl⟩ <;> exact ⟨_, _, _, rfl⟩
  cases action with
  | evaluate p => exact hpredicate h
  | indexOn p => exact hpredicate h
  | conjunctive => exact ⟨_, _, _, (Option.some.inj h).symm⟩
  | batches count => exact ⟨_, _, _, (Option.some.inj h).symm⟩

theorem isPartial_predicateNode? (hchosen : chosen.Nodup ∧ ∀ p ∈ chosen, p < t.nrPredicates)
    (h : t.predicateNode? kind episode chosen = some n) : n.IsPartial t.nrPredicates := by
  obtain ⟨hnodup, hlt⟩ := hchosen
  have heq := chosen_predicateNode? h
  refine ⟨heq.symm ▸ hnodup, heq.symm ▸ hlt, fun p hp => ?_⟩
  rw [heq]
  rcases predicateNode?_cases h with ⟨-, rfl⟩ | ⟨-, rfl | rfl⟩
  · simp only [FilterNode.start, List.mem_toArray, List.mem_map, FilterAction.evaluate.injEq,
      exists_eq_right, reduceCtorEq, and_false, exists_false, or_false] at hp
    simpa using hp
  · simp [FilterNode.start, batchActions] at hp
  · simp [FilterNode.start] at hp

/-- **Behind an action of a node stands a node that has chosen different predicates as well.** -/
theorem isPartial_childNode? (hparent : parent.IsPartial t.nrPredicates)
    (haction : action ∈ parent.actions) (h : t.childNode? parent action episode = some n) :
    n.IsPartial t.nrPredicates := by
  have hleaf : (FilterNode.start .leaf episode parent.chosen #[]).IsPartial t.nrPredicates :=
    ⟨hparent.nodup, hparent.lt, fun p hp => absurd hp (by simp [FilterNode.start])⟩
  cases action with
  | evaluate p => exact isPartial_predicateNode? (hparent.append (Or.inl haction)) h
  | indexOn p => exact isPartial_predicateNode? (hparent.append (Or.inr haction)) h
  | conjunctive => exact Option.some.inj h ▸ hleaf
  | batches count => exact Option.some.inj h ▸ hleaf

/-! ### The shape -/

/-- The actions of the root. -/
def rootActions (indexed : List Bool) : List FilterAction :=
  (List.range indexed.length).map FilterAction.evaluate ++
    ((List.range indexed.length).filter fun p => indexed[p]?.getD false).map FilterAction.indexOn ++
    [FilterAction.conjunctive]

/-- A node offers what is left after an action of another one. -/
def IsBehind (t : FilterTree) (parent : FilterNode) (action : FilterAction) (n : FilterNode) :
    Prop :=
  ∃ episode, (t.childNode? parent action episode).map FilterNode.offer = some n.offer

/-- The root offers all predicates, and the node behind an action is a later one that offers what is
left after the action. -/
structure IsShaped (t : FilterTree) (indexed : List Bool) : Prop where
  nrPredicates_eq : t.nrPredicates = indexed.length
  size_pos : 0 < t.nodes.size
  root : t.root.offer = (.root, [], (rootActions indexed).toArray)
  child : ∀ {id action child}, (t.node id).child? action = some child →
    id < child ∧ child < t.nodes.size ∧
      t.IsBehind (t.node id) ((t.node id).actions[action]?.getD default) (t.node child)

/-- What a node offers and has chosen is all that matters for what stands behind it. -/
theorem IsBehind.congr (h : t.IsBehind parent action n) (hn : t'.nrPredicates = t.nrPredicates)
    (hc : t'.config = t.config) (hchosen : parent'.chosen = parent.chosen) {n' : FilterNode}
    (hoffer : n'.offer = n.offer) : t'.IsBehind parent' action n' := by
  obtain ⟨episode, h⟩ := h
  exact ⟨episode, (offer_childNode? hn hc hchosen).trans (h.trans (congrArg some hoffer.symm))⟩

/-- The node that an action leads to, up to what the node has learned. -/
theorem IsBehind.exists_childNode? (h : t.IsBehind parent action n) :
    ∃ episode new, t.childNode? parent action episode = some new ∧ n.offer = new.offer := by
  obtain ⟨episode, h⟩ := h
  obtain ⟨new, hnew, hoffer⟩ := Option.map_eq_some_iff.1 h
  exact ⟨episode, new, hnew, hoffer.symm⟩

theorem isShaped_start (indexed : List Bool) (config : FilterConfig) :
    (start indexed config).IsShaped indexed where
  nrPredicates_eq := rfl
  size_pos := Nat.zero_lt_one
  root := rfl
  child {id action child} h := by
    have hnone : ((start indexed config).node id).child? action = none := by
      unfold node
      cases id with
      | zero => exact FilterNode.child?_start _ _ _ _ _
      | succ id => rfl
    rw [hnone] at h
    exact absurd h (by simp)

/-- A change that leaves the offers and the children of nodes alone keeps the shape. -/
theorem IsShaped.modifyNode (h : t.IsShaped indexed) (id : Nat) {f : FilterNode → FilterNode}
    (hoffer : ∀ n, (f n).offer = n.offer) (hchildren : ∀ n, (f n).children = n.children) :
    (t.modifyNode id f).IsShaped indexed := by
  have hsame (i : Nat) : ((t.modifyNode id f).node i).offer = (t.node i).offer := by
    rw [node_modifyNode]
    split
    · exact hoffer _
    · rfl
  refine ⟨h.nrPredicates_eq, by simpa using h.size_pos, (hsame 0).trans h.root,
    fun {i action child} hchild => ?_⟩
  have hchild : (t.node i).child? action = some child := by
    rw [node_modifyNode] at hchild
    split at hchild
    · rwa [FilterNode.child?, hchildren] at hchild
    · exact hchild
  obtain ⟨hlt, hsize, hbehind⟩ := h.child hchild
  refine ⟨hlt, by simpa using hsize, ?_⟩
  rw [FilterNode.actions_eq_of_offer_eq (hsame i)]
  exact hbehind.congr rfl rfl (FilterNode.chosen_eq_of_offer_eq (hsame i)) (hsame child)

/-- **Creating a node keeps the shape.** -/
theorem IsShaped.expand? (h : t.IsShaped indexed) {id action episode : Nat}
    (hexpand : t.expand? id action episode = some t') : t'.IsShaped indexed := by
  rcases expand?_cases hexpand with rfl | ⟨-, -, new, hnew, ht'⟩
  · exact h
  -- Old nodes keep their offers, and have the new node behind the action at most.
  have hnode (i : Nat) : t'.node i = if i = t.nodes.size then new else
      if id = i ∧ i < t.nodes.size then { t.node i with
        children := (t.node i).children.setIfInBounds action (some t.nodes.size) }
      else t.node i := by
    rw [ht', node_addNode, size_modifyNode, node_modifyNode]
  have hsize : t'.nodes.size = t.nodes.size + 1 := by
    rw [ht', addNode, Array.size_push, size_modifyNode]
  have hn : t'.nrPredicates = t.nrPredicates := by rw [ht']; rfl
  have hc : t'.config = t.config := by rw [ht']; rfl
  have hsame {i : Nat} (hi : i ≠ t.nodes.size) : (t'.node i).offer = (t.node i).offer := by
    rw [hnode, if_neg hi]
    split <;> rfl
  refine ⟨hn.trans h.nrPredicates_eq, by omega, ?_, fun {i action' child} hchild => ?_⟩
  · exact (hsame h.size_pos.ne).trans h.root
  · rw [hnode] at hchild
    split at hchild
    · -- The new node has no node behind it.
      obtain ⟨kind, chosen, actions, rfl⟩ := childNode?_eq_start hnew
      rw [FilterNode.child?_start] at hchild
      exact absurd hchild (by simp)
    · rename_i hi
      have hparent := hsame hi
      have hcases : (t.node i).child? action' = some child ∨
          (id = i ∧ i < t.nodes.size) ∧ action' = action ∧ child = t.nodes.size := by
        split at hchild
        · rename_i hid
          exact (FilterNode.child?_setIfInBounds hchild).imp_right (⟨hid, ·⟩)
        · exact Or.inl hchild
      rw [FilterNode.actions_eq_of_offer_eq hparent]
      rcases hcases with hold | ⟨⟨rfl, hlt⟩, rfl, rfl⟩
      · -- A node that has been behind the action.
        obtain ⟨hlt, hlt', hbehind⟩ := h.child hold
        exact ⟨hlt, by omega, hbehind.congr hn hc (FilterNode.chosen_eq_of_offer_eq hparent)
          (hsame hlt'.ne)⟩
      · -- The new node behind the action.
        have hbehind : t.IsBehind (t.node id)
            ((t.node id).actions[action']?.getD default) new := ⟨episode, by rw [hnew]; rfl⟩
        refine ⟨hlt, by omega, ?_⟩
        rw [hnode t.nodes.size, if_pos rfl]
        exact hbehind.congr hn hc (FilterNode.chosen_eq_of_offer_eq hparent) rfl

/-! ### The preferred order -/

/-- The root has chosen nothing and offers all predicates. -/
theorem IsShaped.isPartial_root (h : t.IsShaped indexed) : t.root.IsPartial t.nrPredicates := by
  have hroot : (FilterNode.start .root 0 [] (rootActions indexed).toArray).IsPartial
      t.nrPredicates := by
    refine ⟨List.nodup_nil, fun p hp => absurd hp List.not_mem_nil, fun p hp => ?_⟩
    refine ⟨?_, List.not_mem_nil⟩
    rw [h.nrPredicates_eq]
    simp only [FilterNode.start, List.mem_toArray, rootActions, List.mem_append, List.mem_map,
      List.mem_filter, List.mem_range, List.mem_singleton, FilterAction.evaluate.injEq,
      FilterAction.indexOn.injEq, exists_eq_right, reduceCtorEq, and_false, exists_false, or_false,
      false_or] at hp
    rcases hp with hp | hp
    · exact hp
    · exact hp.1
  exact hroot.congr h.root

/-- The most tried action is an action of the node. -/
theorem lt_of_mostTried? {n : FilterNode} {action : Nat} (h : mostTried? n = some action) :
    action < n.actions.size := by
  unfold mostTried? at h
  refine List.foldlRecOn (motive := fun best => ∀ a, best = some a → a < n.actions.size)
    (List.range n.actions.size) _ (fun a ha => absurd ha (by simp))
    (fun best hbest a ha b hb => ?_) action h
  rw [List.mem_range] at ha
  split at hb
  · exact hbest b hb
  · split at hb
    · split at hb
      · exact Option.some.inj hb ▸ ha
      · exact hbest b hb
    · exact Option.some.inj hb ▸ ha

/-- A choice evaluates the predicates that a node has chosen, or the node is a leaf and the choice
evaluates all predicates. -/
def Reaches (choice : FilterChoice) (n : FilterNode) (nrPredicates : Nat) : Prop :=
  choice.order = n.chosen ∨ n.actions = #[] ∧ choice.order = List.range nrPredicates

theorem Reaches.nodup {choice : FilterChoice} {n : FilterNode} {nrPredicates : Nat}
    (h : Reaches choice n nrPredicates) (hn : n.IsPartial nrPredicates) :
    choice.order.Nodup ∧ ∀ p ∈ choice.order, p < nrPredicates := by
  rcases h with h | ⟨-, h⟩ <;> rw [h]
  · exact ⟨hn.nodup, hn.lt⟩
  · exact ⟨List.nodup_range, fun p hp => List.mem_range.1 hp⟩

/-- Adding an action to a choice leads from a node to the one behind the action. -/
theorem Reaches.apply {choice : FilterChoice} (hchosen : choice.order = parent.chosen)
    (h : t.IsBehind parent action n) :
    Reaches (choice.apply t.nrPredicates action) n t.nrPredicates := by
  obtain ⟨episode, new, hnew, hoffer⟩ := h.exists_childNode?
  rw [Reaches, FilterNode.chosen_eq_of_offer_eq hoffer, FilterNode.actions_eq_of_offer_eq hoffer]
  cases action with
  | evaluate p => exact Or.inl (by rw [chosen_predicateNode? hnew, ← hchosen]; rfl)
  | indexOn p => exact Or.inl (by rw [chosen_predicateNode? hnew, ← hchosen]; rfl)
  | conjunctive => exact Or.inr (Option.some.inj hnew ▸ ⟨rfl, rfl⟩)
  | batches count => exact Or.inl (Option.some.inj hnew ▸ hchosen)

/-- Adding an action of a node to a choice leaves the chosen predicates different. -/
theorem nodup_apply {choice : FilterChoice} {nrPredicates : Nat}
    (hparent : parent.IsPartial nrPredicates) (hchosen : choice.order = parent.chosen)
    (haction : action ∈ parent.actions) :
    (choice.apply nrPredicates action).order.Nodup ∧
      ∀ p ∈ (choice.apply nrPredicates action).order, p < nrPredicates := by
  have hchoose {p : Nat} (hp : .evaluate p ∈ parent.actions ∨ .indexOn p ∈ parent.actions) :
      (choice.order ++ [p]).Nodup ∧ ∀ p' ∈ choice.order ++ [p], p' < nrPredicates := by
    rw [hchosen]
    exact hparent.append hp
  cases action with
  | evaluate p => exact hchoose (Or.inl haction)
  | indexOn p => exact hchoose (Or.inr haction)
  | conjunctive => exact ⟨List.nodup_range, fun p hp => List.mem_range.1 hp⟩
  | batches count => exact hchosen ▸ ⟨hparent.nodup, hparent.lt⟩

/-- **The most tried actions choose different predicates.** -/
theorem IsShaped.nodup_bestChoice (h : t.IsShaped indexed) (levels : Nat) {id : Nat}
    {choice : FilterChoice} (hnode : (t.node id).IsPartial t.nrPredicates)
    (hchoice : Reaches choice (t.node id) t.nrPredicates) :
    (t.bestChoice levels id choice).order.Nodup ∧
      ∀ p ∈ (t.bestChoice levels id choice).order, p < t.nrPredicates := by
  induction levels generalizing id choice with
  | zero => exact hchoice.nodup hnode
  | succ levels ih =>
    unfold bestChoice
    dsimp only
    split
    · exact hchoice.nodup hnode
    · rename_i action haction
      have hlt := lt_of_mostTried? haction
      rcases hchoice with hchosen | ⟨hnone, -⟩
      · rw [Array.getElem?_eq_getElem hlt, Option.getD_some]
        split
        · -- The path goes on in the node behind the action.
          rename_i child hchild
          obtain ⟨-, -, hbehind⟩ := h.child hchild
          rw [Array.getElem?_eq_getElem hlt, Option.getD_some] at hbehind
          obtain ⟨episode, new, hnew, hoffer⟩ := hbehind.exists_childNode?
          exact ih ((isPartial_childNode? hnode (Array.getElem_mem hlt) hnew).congr hoffer)
            (Reaches.apply hchosen hbehind)
        · exact nodup_apply hnode hchosen (Array.getElem_mem hlt)
      · -- A leaf has no actions.
        rw [hnone] at hlt
        exact absurd hlt (Nat.not_lt_zero _)

/-- Completing an order lists the remaining predicates. -/
theorem completeOrder_perm {n : Nat} {order : List Nat} (hnodup : order.Nodup)
    (hlt : ∀ p ∈ order, p < n) : (completeOrder n order).Perm (List.range n) := by
  unfold completeOrder
  refine (List.perm_ext_iff_of_nodup ?_ List.nodup_range).2 fun p => ?_
  · refine hnodup.append (List.nodup_range.filter _) fun p hp hrest => ?_
    simp [hp] at hrest
  · rw [List.mem_append, List.mem_filter, List.mem_range]
    by_cases hp : p ∈ order
    · simp [hp, hlt p hp]
    · simp [hp]

/-- **The preferred order lists every predicate once.** -/
theorem IsShaped.bestOrder_perm (h : t.IsShaped indexed) :
    t.bestOrder.Perm (List.range t.nrPredicates) := by
  have hroot : t.root.offer =
      (FilterNode.start .root 0 [] (rootActions indexed).toArray).offer := h.root
  have hstart : Reaches .start (t.node 0) t.nrPredicates :=
    Or.inl (FilterNode.chosen_eq_of_offer_eq hroot).symm
  obtain ⟨hnodup, hlt⟩ := h.nodup_bestChoice (t.nrPredicates + 3) h.isPartial_root hstart
  exact completeOrder_perm hnodup hlt

end FilterTree

end AdaptiveJoin
