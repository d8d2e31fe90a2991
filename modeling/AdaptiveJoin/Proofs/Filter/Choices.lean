import AdaptiveJoin.Proofs.Filter.Accounts
import AdaptiveJoin.Proofs.Filter.Room

/-!
# The choices of the filter tree

The actions on the way to a node of a filter tree build an order of evaluation, which is what the
node has chosen.  Behind the root a node offers to evaluate each predicate that is left, and batches
once none is left (`FilterTree.OffersRest`).

* `FilterTree.IsShaped.offersRest`: so do all nodes behind actions that choose predicates.
* `FilterTree.reachable_isOrderly`: between episodes the choices of a tree are in order, its nodes
  are settled, and an episode that prunes nothing creates one node at most.
-/

namespace AdaptiveJoin

/-- The predicate that an action chooses. -/
def FilterAction.predicate? : FilterAction → Option Nat
  | .evaluate p => some p
  | .indexOn p => some p
  | .conjunctive => none
  | .batches _ => none

/-- An action that chooses a predicate evaluates it next. -/
theorem FilterChoice.order_apply {action : FilterAction} {p : Nat} (h : action.predicate? = some p)
    (choice : FilterChoice) (nrPredicates : Nat) :
    (choice.apply nrPredicates action).order = choice.order ++ [p] := by
  cases action with
  | evaluate p' => rw [← Option.some.inj h]; rfl
  | indexOn p' => rw [← Option.some.inj h]; rfl
  | conjunctive => exact absurd h nofun
  | batches count => exact absurd h nofun

/-- The predicates that a node has not chosen. -/
def FilterNode.unchosen (n : FilterNode) (nrPredicates : Nat) : List Nat :=
  (List.range nrPredicates).filter fun p => !n.chosen.contains p

namespace FilterTree

variable {t : FilterTree} {indexed : List Bool} {config : FilterConfig} {path : List FilterAction}
  {id : Nat}

/-! ### Actions that choose predicates -/

/-- The nodes behind actions that choose predicates, with these actions from the root on. -/
inductive Follows (t : FilterTree) : List FilterAction → Nat → Prop where
  | root : t.Follows [] 0
  | child {path : List FilterAction} {id a p child : Nat} {action : FilterAction}
      (h : t.Follows path id) (haction : (t.node id).actions[a]? = some action)
      (hp : action.predicate? = some p) (hchild : (t.node id).child? a = some child) :
      t.Follows (path ++ [action]) child

theorem Follows.eq_zero (h : t.Follows path id) (hpath : path = []) : id = 0 := by
  cases h with
  | root => rfl
  | child => exact absurd hpath (by simp)

/-- The choice that some actions build. -/
def choiceOf (nrPredicates : Nat) (path : List FilterAction) : FilterChoice :=
  path.foldl (fun choice action => choice.apply nrPredicates action) .start

/-- Each unchosen predicate is offered while there is one, and batches at most from then on. -/
structure OffersRest (n : FilterNode) (nrPredicates : Nat) (config : FilterConfig) : Prop where
  evaluates : n.unchosen nrPredicates ≠ [] →
    n.actions = ((n.unchosen nrPredicates).map FilterAction.evaluate).toArray
  splits : n.unchosen nrPredicates = [] →
    n.kind = .rowParallel ∧ n.actions = batchActions config ∨ n.kind = .leaf ∧ n.actions = #[]

theorem OffersRest.congr {n n' : FilterNode} {nrPredicates : Nat}
    (h : OffersRest n nrPredicates config) (hoffer : n'.offer = n.offer) :
    OffersRest n' nrPredicates config := by
  obtain ⟨hevaluates, hsplits⟩ := h
  unfold FilterNode.unchosen at hevaluates hsplits
  rw [← FilterNode.chosen_eq_of_offer_eq hoffer] at hevaluates hsplits
  rw [← FilterNode.actions_eq_of_offer_eq hoffer] at hevaluates hsplits
  rw [← FilterNode.kind_eq_of_offer_eq hoffer] at hsplits
  exact ⟨hevaluates, hsplits⟩

/-- The node behind an action that chooses a predicate offers what is left. -/
theorem offersRest_predicateNode? {n : FilterNode} {kind : FilterNode.Kind} {episode : Nat}
    {chosen : List Nat} (h : t.predicateNode? kind episode chosen = some n) :
    OffersRest n t.nrPredicates t.config := by
  have hunchosen : n.unchosen t.nrPredicates =
      (List.range t.nrPredicates).filter fun p => !chosen.contains p := by
    rw [FilterNode.unchosen, chosen_predicateNode? h]
  rcases predicateNode?_cases h with ⟨hsome, rfl⟩ | ⟨hnone, hn⟩
  · exact ⟨fun _ => rfl, fun hrest => absurd (hunchosen.symm.trans hrest) hsome⟩
  · refine ⟨fun hrest => absurd (hunchosen.trans hnone) hrest, fun _ => ?_⟩
    rcases hn with rfl | rfl
    · exact Or.inl ⟨rfl, rfl⟩
    · exact Or.inr ⟨rfl, rfl⟩

/-- An action that chooses a predicate leads to the node of the predicates chosen so far. -/
theorem childNode?_of_predicate? {action : FilterAction} {p : Nat}
    (h : action.predicate? = some p) (parent : FilterNode) (episode : Nat) :
    ∃ kind, t.childNode? parent action episode =
      t.predicateNode? kind episode (parent.chosen ++ [p]) := by
  cases action with
  | evaluate p' => exact ⟨.branching, by rw [← Option.some.inj h]; rfl⟩
  | indexOn p' => exact ⟨.index, by rw [← Option.some.inj h]; rfl⟩
  | conjunctive => exact absurd h nofun
  | batches count => exact absurd h nofun

/-- **Behind actions that choose predicates, what a node has chosen is the order they build**, and
no predicate is chosen twice. -/
theorem IsShaped.chosen_eq (h : t.IsShaped indexed) (hpath : t.Follows path id) :
    (t.node id).chosen = (choiceOf t.nrPredicates path).order ∧
      (t.node id).IsPartial t.nrPredicates := by
  induction hpath with
  | root => exact ⟨congrArg (fun offer => offer.2.1) h.root, h.isPartial_root⟩
  | @child path id a p child action hpath haction hp hchild ih =>
    obtain ⟨hchosen, hpartial⟩ := ih
    obtain ⟨-, -, hbehind⟩ := h.child hchild
    rw [haction, Option.getD_some] at hbehind
    obtain ⟨episode, new, hnew, hoffer⟩ := hbehind.exists_childNode?
    refine ⟨?_, (isPartial_childNode? hpartial (Array.mem_of_getElem? haction) hnew).congr hoffer⟩
    -- Both sides have the predicate of the last action added to what was chosen before.
    obtain ⟨kind, hnode⟩ := childNode?_of_predicate? (t := t) hp (t.node id) episode
    rw [FilterNode.chosen_eq_of_offer_eq hoffer, chosen_predicateNode? (hnode.symm.trans hnew),
      hchosen, choiceOf, choiceOf, List.foldl_append, List.foldl_cons, List.foldl_nil,
      FilterChoice.order_apply hp]

/-- **Behind actions that choose predicates, a node offers what is left.** -/
theorem IsShaped.offersRest (h : t.IsShaped indexed) (hpath : t.Follows path id)
    (hne : path ≠ []) : OffersRest (t.node id) t.nrPredicates t.config := by
  cases hpath with
  | root => exact absurd rfl hne
  | child hpath haction hp hchild =>
    obtain ⟨-, -, hbehind⟩ := h.child hchild
    rw [haction, Option.getD_some] at hbehind
    obtain ⟨episode, new, hnew, hoffer⟩ := hbehind.exists_childNode?
    obtain ⟨kind, hnode⟩ := childNode?_of_predicate? (t := t) hp _ episode
    exact (offersRest_predicateNode? (hnode.symm.trans hnew)).congr hoffer

/-- The root and the nodes behind actions that choose predicates offer to evaluate the unchosen
predicates, and no others. -/
theorem IsShaped.evaluate_mem_actions (h : t.IsShaped indexed) (hpath : t.Follows path id)
    (p : Nat) :
    .evaluate p ∈ (t.node id).actions ↔ p < t.nrPredicates ∧ p ∉ (t.node id).chosen := by
  refine ⟨fun hp => (h.chosen_eq hpath).2.offered p (Or.inl hp), fun ⟨hlt, hnew⟩ => ?_⟩
  have hmem : p ∈ (t.node id).unchosen t.nrPredicates :=
    List.mem_filter.2 ⟨List.mem_range.2 hlt, by simpa using hnew⟩
  by_cases hne : path = []
  · obtain rfl := hpath.eq_zero hne
    rw [← FilterTree.root, h.actions_root, List.mem_toArray, rootActions, List.append_assoc]
    exact List.mem_append_left _ (List.mem_map_of_mem (List.mem_range.2 (h.nrPredicates_eq ▸ hlt)))
  · rw [(h.offersRest hpath hne).evaluates (List.ne_nil_of_mem hmem), List.mem_toArray]
    exact List.mem_map_of_mem hmem

/-! ### Reachable trees -/

/-- The trees that episodes lead to, with any number, random source and filter for each.  An episode
that asks for too much room leaves no tree to go on with. -/
inductive Reachable (indexed : List Bool) (config : FilterConfig) : FilterTree → Prop where
  | start : Reachable indexed config (.start indexed config)
  | sample {γ : Type} [RandomSource γ] {t : FilterTree} (h : Reachable indexed config t)
      (episode : Nat) (source : γ) (filter : TableFilter)
      (hroom : (t.sample episode source filter).1 ≠ .overflow) :
      Reachable indexed config (t.sample episode source filter).2.tree

/-- The choices of a tree are in order, and its accounts balance. -/
structure IsOrderly (t : FilterTree) (indexed : List Bool) (config : FilterConfig) : Prop where
  settled : ∀ id, (t.node id).IsSettled
  nodup_chosen : ∀ path id, t.Follows path id → (t.node id).chosen.Nodup
  chosen_eq : ∀ path id, t.Follows path id →
    (t.node id).chosen = (choiceOf indexed.length path).order
  evaluate_mem : ∀ path id, t.Follows path id → ∀ p,
    .evaluate p ∈ (t.node id).actions ↔ p < indexed.length ∧ p ∉ (t.node id).chosen
  offersRest : ∀ path id, t.Follows path id → path ≠ [] →
    OffersRest (t.node id) indexed.length config
  bestOrder_perm : t.bestOrder.Perm (List.range indexed.length)

/-- Before the first episode no action has been tried. -/
theorem isSettledFrom_start (indexed : List Bool) (config : FilterConfig) :
    (start indexed config).IsSettledFrom indexed 0 := by
  refine ⟨isShaped_start indexed config, fun i _ => ?_⟩
  cases i with
  | zero => exact FilterNode.isSettled_start _ _ _ _
  | succ i =>
    rw [node_of_le (Nat.succ_le_succ (Nat.zero_le i))]
    exact FilterNode.isSettled_default

/-- **Every reachable tree has its shape and is settled.** -/
theorem Reachable.isSettledFrom (h : Reachable indexed config t) :
    t.IsSettledFrom indexed 0 ∧ t.IsBounded config := by
  induction h with
  | start => exact ⟨isSettledFrom_start indexed config, isBounded_start indexed config⟩
  | @sample γ _ t h episode source filter hroom ih =>
    have hkeeps : config.Keeps fun _ => True := fun _ _ _ _ => trivial
    exact ⟨(Run.sampleNode_settles indexed episode _ 0 .start ⟨t, source, filter⟩ ih.1).2 hroom,
      (sample_keeps hkeeps ih.2 episode source trivial).tree⟩

/-- **Between episodes the choices of the tree are in order and its accounts balance, and an episode
that prunes nothing creates one node at most.**  An attempt of which nothing comes prunes its
action, which had not been pruned before, and nothing else prunes one: an episode prunes nothing
exactly if something comes of each of its attempts. -/
theorem reachable_isOrderly (h : Reachable indexed config t) :
    t.IsOrderly indexed config ∧
      ∀ {γ : Type} [RandomSource γ] (episode : Nat) (source : γ) (filter : TableFilter),
        let t' := (t.sample episode source filter).2.tree
        (∀ id action, (t'.node id).isPruned action = true → (t.node id).isPruned action = true) →
          t'.nrNodes ≤ t.nrNodes + 1 := by
  obtain ⟨hsettled, hbounded⟩ := h.isSettledFrom
  have hshaped := hsettled.shaped
  obtain ⟨hn, hconfig⟩ : t.nrPredicates = indexed.length ∧ t.config = config :=
    ⟨hshaped.nrPredicates_eq, hbounded.config_eq⟩
  refine ⟨?_, ?_⟩
  · constructor
    · exact fun id => hsettled.settled id (Nat.zero_le id)
    · exact fun path id hpath => (hshaped.chosen_eq hpath).2.nodup
    · exact fun path id hpath => hn ▸ (hshaped.chosen_eq hpath).1
    · exact fun path id hpath => hn ▸ hshaped.evaluate_mem_actions hpath
    · exact fun path id hpath hne => hn ▸ hconfig ▸ hshaped.offersRest hpath hne
    · exact hn ▸ hshaped.bestOrder_perm
  · -- The episode goes on in the root, and more than one new node would mean a new pruned action.
    intro γ _ episode source filter t' hprunes
    refine (Run.sampleNode_grows indexed episode _ 0 .start ⟨t, source, filter⟩
      hsettled).resolve_right ?_
    rintro ⟨id, action, hnot, hpruned⟩
    rw [hprunes id action hpruned] at hnot
    exact Bool.noConfusion hnot

/-- The tree of two predicates, the first one with an index, after an episode. -/
def sampledOnce : FilterTree :=
  let filter := TableFilter.start (.ofTables #[]) 0 [] []
  ((start [true, false] {}).sample 1 (⟨0⟩ : SplitMix) filter).2.tree

/-- The episode has chosen to evaluate predicate 0 first, and pruned nothing. -/
theorem reachable_isOrderly_sample : Reachable [true, false] {} sampledOnce ∧
    sampledOnce.Follows [.evaluate 0] 1 ∧ (sampledOnce.node 1).chosen = [0] ∧
      (sampledOnce.node 1).visits = (sampledOnce.node 1).tries.sum ∧
      sampledOnce.bestOrder.Perm [0, 1] ∧ sampledOnce.nrNodes ≤ 2 := by
  have hroom : FilterConfig.HasRoom {} true :=
    FilterConfig.hasRoom_of_lt (by decide) (by decide) (by decide) true
  have hreachable : Reachable [true, false] {} sampledOnce := .sample .start 1 _ _
    (sample_ne_overflow hroom (isBounded_start _ _) (fun _ => rfl) 1 _)
  have hfollows : sampledOnce.Follows [.evaluate 0] 1 :=
    .child (a := 0) (p := 0) .root (by decide +kernel) rfl (by decide +kernel)
  obtain ⟨horderly, -⟩ := reachable_isOrderly hreachable
  obtain ⟨-, hgrows⟩ := reachable_isOrderly (.start : Reachable [true, false] {} (start _ {}))
  refine ⟨hreachable, hfollows, horderly.chosen_eq _ _ hfollows, (horderly.settled 1).visits_eq,
    horderly.bestOrder_perm, hgrows 1 (⟨0⟩ : SplitMix) (.start (.ofTables #[]) 0 [] []) ?_⟩
  -- No node of the tree after the episode has pruned an action.
  have hnone : ∀ n ∈ sampledOnce.nodes.toList, true ∉ n.pruned.toList := by decide +kernel
  intro id action hpruned
  change (sampledOnce.node id).isPruned action = true at hpruned
  rcases Nat.lt_or_ge id sampledOnce.nodes.size with hlt | hle
  · rw [node, Array.getElem?_eq_getElem hlt, Option.getD_some] at hpruned
    refine absurd ?_ (hnone _ (Array.getElem_mem_toList hlt))
    rw [FilterNode.isPruned] at hpruned
    cases haction : sampledOnce.nodes[id].pruned[action]? with
    | none => rw [haction] at hpruned; exact Bool.noConfusion hpruned
    | some pruned =>
      rw [haction] at hpruned
      exact (show pruned = true from hpruned) ▸
        Array.mem_toList_iff.2 (Array.mem_of_getElem? haction)
  · rw [node_of_le hle] at hpruned
    exact Bool.noConfusion hpruned

end FilterTree

end AdaptiveJoin
