import AdaptiveJoin.Proofs.Filter.Room
import AdaptiveJoin.Proofs.Filter.Selection
import AdaptiveJoin.Proofs.Filter.Sequences
import AdaptiveJoin.Proofs.Filter.Shape

/-!
# Every episode decides a slice

Where there is room, an action fails only if it asks for a missing index or leads to a node without
open actions; then it is pruned, and another one is selected.  The last action of the root, which
evaluates all predicates in their own order, never fails.  So the root keeps an open action, and no
more attempts are needed than it has actions.

* `FilterTree.Run.follow_lastAction_ne_refused`: the last action of the root never fails.
* `FilterTree.Run.IsTrying.attempt`: attempts at the root succeed.
* `FilterTree.Run.IsReady.sample`: an episode of an unfinished filter decides a slice, is worth at
  least 0, and leaves all of this as it was.
-/

namespace AdaptiveJoin

/-! ### Calls -/

/-- A choice that passes over the indexes can be applied. -/
theorem TableFilter.execute_ne_refused {choice : FilterChoice} (h : choice.conjunctive = true)
    (f : TableFilter) (budget : UInt64) : (f.execute budget choice).1 ≠ .refused := by
  have haccess : choice.access? = none := if_pos h
  rcases f.execute_slices budget choice with ⟨-, heq⟩ | ⟨-, ⟨p, hp, -⟩, -⟩ | ⟨-, -, heq⟩ |
    ⟨-, -, -, _, _, _, -, heq⟩
  · rw [heq]
    exact nofun
  · exact absurd (haccess.symm.trans hp) nofun
  · rw [heq]
    exact nofun
  · rw [heq]
    exact nofun

/-- A call of an unfinished filter leaves it alone or moves its cursor. -/
theorem TableFilter.LeadsTo.leads {c : FilterConfig} {indexed : Bool} {f g : TableFilter}
    (hg : f.LeadsTo g) (hfits : c.Fits f.cardinality) (hroom : c.HasRoom indexed)
    (hindexed : f.HasIndex → indexed = true) (hunfinished : g.isFinished = false) :
    c.Leads (· = g) (fun g' => f.LeadsTo g' ∧ g.cursor < g'.cursor) False := by
  rintro g' choice rfl hoffers
  have hcall := hfits.fits hoffers
  have hkeeps := hg.execute hcall
  have hsame := g'.execute_of_ne_decided (c.rowsOfStep choice.batches) choice
  have hlt {reward : Float} :
      (g'.execute (c.rowsOfStep choice.batches) choice).1 = .decided reward →
        g'.cursor < (g'.execute (c.rowsOfStep choice.batches) choice).2.cursor :=
    hg.lt_execute (hg.fits hcall) hunfinished
  have hreward {reward : Float} := @zero_le_execute g' (c.rowsOfStep choice.batches) choice reward
  have hanswer : (g'.execute (c.rowsOfStep choice.batches) choice).1 ≠ .overflow := by
    refine g'.execute_ne_overflow hroom (fun hindex => hindexed ?_) hoffers
    rwa [HasIndex, hg.indexes_eq] at hindex
  -- The answers of a call: a decided slice, a refusal that changes nothing, and no overflow.
  generalize g'.execute (c.rowsOfStep choice.batches) choice = result
    at hkeeps hsame hlt hreward hanswer ⊢
  obtain ⟨answer, g''⟩ := result
  cases answer with
  | decided reward => exact ⟨hreward rfl, hkeeps, hlt rfl⟩
  | refused => exact hsame fun _ => by simp
  | overflow => exact absurd rfl hanswer

/-! ### What nodes learn -/

namespace FilterNode

/-- A change of what a node has learned: the node offers what it did, in front of the same nodes,
and its rewards are still not negative. -/
structure IsLearning (f : FilterNode → FilterNode) : Prop where
  offer : ∀ n, (f n).offer = n.offer
  children : ∀ n, (f n).children = n.children
  rewards : ∀ n, n.HasNonnegRewards → (f n).HasNonnegRewards

theorem isLearning_untried (untried : Array Nat) :
    IsLearning fun n => { n with untried := untried } :=
  ⟨fun _ => rfl, fun _ => rfl, fun _ hn => hn⟩

theorem isLearning_prune (action : Nat) : IsLearning (·.prune action) :=
  ⟨fun _ => rfl, fun _ => rfl, fun _ hn => hn⟩

theorem isLearning_record (action : Nat) {reward : Float} (hreward : 0 ≤ reward) :
    IsLearning (·.record action reward) :=
  ⟨fun _ => rfl, fun _ => rfl, fun _ hn => hn.record action hreward⟩

end FilterNode

namespace FilterTree

variable {t t' : FilterTree} {c : FilterConfig} {indexed : List Bool} {id action episode : Nat}
  {f : FilterNode → FilterNode}

/-! ### Nodes -/

section Nodes

variable {P : FilterNode → Prop}

theorem forall_node_modifyNode (h : ∀ i, P (t.node i)) (id : Nat)
    (hf : P (t.node id) → P (f (t.node id))) (i : Nat) : P ((t.modifyNode id f).node i) := by
  rw [node_modifyNode]
  split
  · rename_i hid
    obtain ⟨rfl, -⟩ := hid
    exact hf (h id)
  · exact h i

theorem forall_node_expand? (h : ∀ i, P (t.node i)) {action episode : Nat}
    (hchildren : ∀ n children, P n → P { n with children := children })
    (hnew : ∀ kind chosen actions, P (.start kind episode chosen actions))
    (hexpand : t.expand? id action episode = some t') (i : Nat) : P (t'.node i) := by
  rcases expand?_cases hexpand with rfl | ⟨-, -, new, hchild, rfl⟩
  · exact h i
  · rw [node_addNode]
    split
    · obtain ⟨kind, chosen, actions, rfl⟩ := childNode?_eq_start hchild
      exact hnew kind chosen actions
    · exact forall_node_modifyNode h id (hchildren _ _) i

end Nodes

theorem root_modifyNode (hid : 1 ≤ id) (f : FilterNode → FilterNode) :
    (t.modifyNode id f).root = t.root := by
  rw [root, root, node_modifyNode, if_neg fun h => by omega]

/-- Expanding changes the children of the root at most, and those only at the root. -/
theorem root_expand? (hsize : 0 < t.nodes.size) (hexpand : t.expand? id action episode = some t') :
    ∃ children, t'.root = { t.root with children := children } ∧
      (1 ≤ id → children = t.root.children) := by
  rcases expand?_cases hexpand with rfl | ⟨-, -, new, -, rfl⟩
  · exact ⟨t'.root.children, rfl, fun _ => rfl⟩
  · rw [root, node_addNode, size_modifyNode, if_neg (by omega), node_modifyNode]
    split
    · exact ⟨_, rfl, fun hid => by omega⟩
    · exact ⟨t.root.children, rfl, fun _ => rfl⟩

theorem nrPredicates_expand? (hexpand : t.expand? id action episode = some t') :
    t'.nrPredicates = t.nrPredicates := by
  rcases expand?_cases hexpand with rfl | ⟨-, -, new, -, rfl⟩ <;> rfl

/-! ### Sound trees -/

/-- What all steps of an episode keep of a tree. -/
structure IsSound (t : FilterTree) (c : FilterConfig) (indexed : List Bool) : Prop where
  bounded : t.IsBounded c
  shaped : t.IsShaped indexed
  rewards : ∀ id, (t.node id).HasNonnegRewards

/-- A change of what a node has learned keeps a tree sound. -/
theorem IsSound.modifyNode (h : t.IsSound c indexed) (id : Nat) (hf : FilterNode.IsLearning f) :
    (t.modifyNode id f).IsSound c indexed where
  bounded := h.bounded.modifyNode id fun n hn action haction =>
    hn action (FilterNode.actions_eq_of_offer_eq (hf.offer n) ▸ haction)
  shaped := h.shaped.modifyNode id hf.offer hf.children
  rewards := forall_node_modifyNode h.rewards id (hf.rewards _)

theorem IsSound.expand? (h : t.IsSound c indexed)
    (hexpand : t.expand? id action episode = some t') : t'.IsSound c indexed where
  bounded := h.bounded.expand? hexpand
  shaped := h.shaped.expand? hexpand
  rewards := forall_node_expand? h.rewards (fun _ _ hn => hn)
    (fun _ _ _ => FilterNode.hasNonnegRewards_start _ _ _ _) hexpand

/-- A sound tree with a certain root. -/
structure HasRoot (t : FilterTree) (c : FilterConfig) (indexed : List Bool) (n : FilterNode) : Prop
    extends t.IsSound c indexed where
  root_eq : t.root = n

/-- A change of what a node behind the root has learned. -/
theorem HasRoot.modifyNode {n : FilterNode} (h : t.HasRoot c indexed n) (hid : 1 ≤ id)
    (hf : FilterNode.IsLearning f) : (t.modifyNode id f).HasRoot c indexed n :=
  ⟨h.toIsSound.modifyNode id hf, (root_modifyNode hid f).trans h.root_eq⟩

theorem HasRoot.expand? {n : FilterNode} (h : t.HasRoot c indexed n) (hid : 1 ≤ id)
    (hexpand : t.expand? id action episode = some t') : t'.HasRoot c indexed n := by
  obtain ⟨children, hroot, hsame⟩ := root_expand? h.shaped.size_pos hexpand
  refine ⟨h.toIsSound.expand? hexpand, hroot.trans ?_⟩
  rw [hsame hid]
  exact h.root_eq

/-- Behind the root, an episode with room keeps the tree sound and leaves the root alone. -/
theorem invariant_hasRoot {room : Bool} (hroom : c.HasRoom room) (indexed : List Bool)
    (n : FilterNode) :
    Invariant c 1 (·.HasRoot c indexed n) (·.HasRoot c indexed n) False where
  bounded h := h.bounded
  child h _ _ _ hid hchild := hid.trans (h.shaped.child hchild).1.le
  select h _ hid untried := h.modifyNode hid (FilterNode.isLearning_untried untried)
  room h _ _ _ hexpand := not_overflows hroom h.bounded hexpand
  expand h _ _ _ hid hexpand := h.expand? hid hexpand
  prune h _ hid action := h.modifyNode hid (FilterNode.isLearning_prune action)
  decide h := h
  record h _ hid action _ hreward :=
    h.modifyNode hid (FilterNode.isLearning_record action hreward)

/-! ### Attempts at the root -/

/-- The last action of the root, which evaluates all predicates in their own order. -/
def lastAction (indexed : List Bool) : Nat := (rootActions indexed).length - 1

theorem lastAction_lt (indexed : List Bool) :
    lastAction indexed < (rootActions indexed).toArray.size := by
  simp [lastAction, rootActions]

theorem getElem?_lastAction (indexed : List Bool) :
    (rootActions indexed).toArray[lastAction indexed]? = some .conjunctive := by
  rw [List.getElem?_toArray, lastAction, rootActions, List.length_append, List.length_singleton,
    Nat.add_sub_cancel, List.getElem?_append_right (Nat.le_refl _), Nat.sub_self]
  rfl

theorem IsShaped.actions_root (h : t.IsShaped indexed) :
    t.root.actions = (rootActions indexed).toArray := congrArg (fun offer => offer.2.2) h.root

/-- A change of what the root has learned. -/
theorem IsShaped.root_modifyNode_zero (h : t.IsShaped indexed) (f : FilterNode → FilterNode) :
    (t.modifyNode 0 f).root = f t.root := by
  rw [FilterTree.root, node_modifyNode, if_pos ⟨rfl, h.size_pos⟩, FilterTree.root]

namespace Run

variable {γ : Type} [RandomSource γ] {r : Run γ} {g : TableFilter} {n : FilterNode} {action : Nat}

/-- An episode at the root that has decided no slice: nothing is recorded, and the filter is as it
was. -/
structure IsTrying (r : Run γ) (c : FilterConfig) (indexed : List Bool) (g : TableFilter) :
    Prop where
  sound : r.tree.IsSound c indexed
  scores : r.tree.root.IsComparable c.explorationWeight (lastAction indexed)
  root : r.tree.root.IsOpen (lastAction indexed)
  filter : r.filter = g

/-- What an attempt comes to: a slice is decided, and the root still keeps its last action open. -/
def Succeeds (c : FilterConfig) (indexed : List Bool) (Q : TableFilter → Prop)
    (result : FilterAnswer × Run γ) : Prop :=
  ∃ reward r, result = (.decided reward, r) ∧ 0 ≤ reward ∧ r.tree.IsSound c indexed ∧
    r.tree.root.IsOpen (lastAction indexed) ∧ Q r.filter

omit [RandomSource γ] in
/-- A choice that passes over the indexes can be applied. -/
theorem execute_ne_refused (r : Run γ) {choice : FilterChoice} (h : choice.conjunctive = true) :
    (r.execute choice).1 ≠ .refused :=
  TableFilter.execute_ne_refused h _ _

theorem playout_ne_refused (r : Run γ) (id : Nat) {choice : FilterChoice}
    (h : choice.conjunctive = true) : (r.playout id choice).1 ≠ .refused := by
  unfold playout
  apply execute_ne_refused
  split <;> exact h

/-- Selecting an action at the root, and creating the node behind it. -/
theorem IsTrying.select? (h : r.IsTrying c indexed g) {room : Bool} (hroom : c.HasRoom room)
    (hexploration : ¬c.explorationWeight < 0) (episode : Nat) (choice : FilterChoice) :
    ∃ action branch r' tree, r.select? 0 choice = (some (action, branch), r') ∧
      r'.tree.expand? 0 action episode = some tree ∧
      branch = choice.apply tree.nrPredicates (tree.root.actions[action]?.getD default) ∧
      ({ r' with tree := tree } : Run γ).Holds (·.HasRoot c indexed tree.root) (· = g) ∧
      tree.root.IsComparable c.explorationWeight (lastAction indexed) ∧
      tree.root.HasSelected action (lastAction indexed) ∧
      tree.root.unpruned = r.tree.root.unpruned := by
  have hconfig := h.sound.bounded.config_eq
  obtain ⟨action, untried, source, hselect, hselected⟩ := h.root.select?_eq_some
    (h.sound.rewards 0) hexploration h.scores r.source
  have hmodify : (r.tree.modifyNode 0 fun _ => { r.tree.root with untried := untried }) =
      r.tree.modifyNode 0 fun n => { n with untried := untried } := modifyNode_congr rfl
  generalize htree : r.tree.modifyNode 0 (fun n => { n with untried := untried }) = tree₀ at hmodify
  have hroot : tree₀.root = { r.tree.root with untried := untried } :=
    htree ▸ h.sound.shaped.root_modifyNode_zero _
  have hsound : tree₀.IsSound c indexed :=
    htree ▸ h.sound.modifyNode 0 (FilterNode.isLearning_untried untried)
  have hsame : tree₀.nrPredicates = r.tree.nrPredicates := htree ▸ rfl
  -- The root of the expanded tree is the old one but for untried actions and children.
  obtain ⟨tree, hexpand⟩ := exists_expand? hroom hsound.bounded.config_eq 0 action episode
  obtain ⟨children, hexpanded, -⟩ := root_expand? hsound.shaped.size_pos hexpand
  rw [hroot] at hexpanded
  refine ⟨action, _, { r with tree := tree₀, source := source }, tree, ?_, hexpand, rfl,
    ⟨⟨hsound.expand? hexpand, rfl⟩, h.filter⟩, ?_, ?_, ?_⟩
  · unfold Run.select?
    rw [FilterTree.root] at hselect hmodify
    rw [hconfig, hselect]
    dsimp only
    rw [hmodify, nrPredicates_expand? hexpand, hexpanded, hsame]
    rfl
  · rw [hexpanded]
    exact h.scores
  · rw [hexpanded]
    exact hselected.withChildren children
  · rw [hexpanded]
    rfl

/-- **The last action of the root never fails.** -/
theorem follow_lastAction_ne_refused (hr : r.tree.IsShaped indexed) (episode levels : Nat)
    {branch : FilterChoice} (hbranch : branch.conjunctive = true) :
    (r.follow (sampleNode episode (levels + 1)) 0 (lastAction indexed) branch).1 ≠ .refused := by
  unfold follow
  split
  · rename_i child hchild
    obtain ⟨-, -, hbehind⟩ := hr.child hchild
    rw [← root, hr.actions_root, getElem?_lastAction] at hbehind
    obtain ⟨created, new, hnew, hoffer⟩ := hbehind.exists_childNode?
    -- Behind the last action stands a leaf.
    have hleaf : (r.tree.node child).kind = .leaf :=
      (FilterNode.kind_eq_of_offer_eq hoffer).trans (Option.some.inj hnew ▸ rfl)
    unfold sampleNode
    dsimp only
    rw [if_pos hleaf]
    exact execute_ne_refused r hbranch
  · exact playout_ne_refused r 0 hbranch

omit [RandomSource γ] in
/-- After an action other than the last one has failed, it is pruned, and the root tried again. -/
theorem isTrying_prune (hr : r.Holds (·.HasRoot c indexed n) (· = g))
    (hscores : n.IsComparable c.explorationWeight (lastAction indexed))
    (hn : n.HasSelected action (lastAction indexed)) (hne : action ≠ lastAction indexed) :
    let r' : Run γ := { r with tree := r.tree.modifyNode 0 (·.prune action) }
    r'.IsTrying c indexed g ∧ r'.tree.root.unpruned.length < n.unpruned.length := by
  intro r'
  obtain ⟨htree, hfilter⟩ := hr
  have hroot : r'.tree.root = n.prune action :=
    htree.root_eq ▸ htree.shaped.root_modifyNode_zero (·.prune action)
  -- The rewards of the other actions are as they were, and one action fewer is left.
  refine ⟨⟨htree.toIsSound.modifyNode 0 (FilterNode.isLearning_prune action), ?_, ?_, hfilter⟩, ?_⟩
  · rw [hroot]
    exact hscores
  · rw [hroot]
    exact hn.isOpen_prune hne
  · rw [hroot]
    exact hn.length_unpruned_lt

omit [RandomSource γ] in
/-- After a slice is decided, the selected action is recorded. -/
theorem succeeds_record {Q : TableFilter → Prop} (hr : r.Holds (·.HasRoot c indexed n) Q)
    (hn : n.HasSelected action (lastAction indexed)) {reward : Float} (hreward : 0 ≤ reward) :
    Succeeds c indexed Q
      (.decided reward, { r with tree := r.tree.modifyNode 0 (·.record action reward) }) := by
  have hsound : (r.tree.modifyNode 0 (·.record action reward)).IsSound c indexed :=
    hr.tree.toIsSound.modifyNode 0 (FilterNode.isLearning_record action hreward)
  refine ⟨reward, _, rfl, hreward, hsound, ?_, hr.filter⟩
  rw [hr.tree.shaped.root_modifyNode_zero, hr.tree.root_eq]
  exact hn.isOpen_record reward

/-- **Attempts at the root succeed before all its actions are pruned.** -/
theorem IsTrying.attempt {Q : TableFilter → Prop} (hQ : c.Leads (· = g) Q False)
    (h : r.IsTrying c indexed g) {room : Bool} (hroom : c.HasRoom room)
    (hexploration : ¬c.explorationWeight < 0) (episode levels : Nat) {choice : FilterChoice}
    (hchoice : c.Offers choice.batches) {attempts : Nat}
    (hattempts : r.tree.root.unpruned.length ≤ attempts) :
    Succeeds c indexed Q
      (r.attempt (sampleNode episode (levels + 1)) episode 0 choice attempts) := by
  -- Every attempt that fails leaves one action fewer that has not been pruned.
  induction attempts generalizing r with
  | zero =>
    have hmem : lastAction indexed ∈ r.tree.root.unpruned :=
      List.mem_filter.2 ⟨List.mem_range.2 h.root.lt, by rw [h.root.notPruned]; rfl⟩
    exact absurd (List.length_pos_of_mem hmem) (by omega)
  | succ attempts ih =>
    obtain ⟨action, branch, r', tree, hselect, hexpand, hbranch, hheld, hscores, hselected,
      hunpruned⟩ := h.select? hroom hexploration episode choice
    have hshaped := hheld.tree.shaped
    have hoffers : c.Offers branch.batches := by
      have hbounded : r.Holds (·.IsBounded c) (· = g) := ⟨h.sound.bounded, h.filter⟩
      have hwithin := (invariant_isBounded (not_overflows hroom)).select? hbounded (Nat.zero_le 0)
        hchoice
      exact hwithin.2 action branch (by rw [hselect])
    have hI := invariant_hasRoot hroom indexed tree.root
    have hends := hI.follow hQ (hI.sampleNode hQ episode (levels + 1)) hheld 0 action
      (fun _ hchild => (hshaped.child hchild).1) hoffers
    have hlast : action = lastAction indexed →
        (({ r' with tree := tree } : Run γ).follow (sampleNode episode (levels + 1)) 0 action
          branch).1 ≠ .refused := by
      rintro rfl
      refine follow_lastAction_ne_refused (r := { r' with tree := tree }) hshaped episode levels ?_
      rw [hbranch, hshaped.actions_root, getElem?_lastAction]
      rfl
    unfold Run.attempt
    rw [hselect]
    dsimp only
    rw [hexpand]
    dsimp only
    generalize ({ r' with tree := tree } : Run γ).follow (sampleNode episode (levels + 1)) 0 action
      branch = result at hends hlast ⊢
    obtain ⟨answer, r''⟩ := result
    cases answer with
    | decided reward => exact succeeds_record hends.2 hselected hends.1
    | refused =>
      obtain ⟨htrying, hfewer⟩ := isTrying_prune hends hscores hselected fun heq => hlast heq rfl
      rw [hunpruned] at hfewer
      exact ih htrying (by omega)
    | overflow => exact hends.1.elim

/-! ### Whole episodes -/

/-- What is known of a run between its episodes. -/
structure IsReady (r : Run γ) (c : FilterConfig) (indexed : List Bool) (f : TableFilter) :
    Prop where
  sound : r.tree.IsSound c indexed
  root : r.tree.root.IsOpen (lastAction indexed)
  filter : f.LeadsTo r.filter

/-- **An episode of an unfinished filter decides a slice**, and is worth at least 0. -/
theorem IsReady.sample {f : TableFilter} (h : r.IsReady c indexed f)
    (hexploration : ¬c.explorationWeight < 0) (hfits : c.Fits f.cardinality) {room : Bool}
    (hroom : c.HasRoom room) (hindexed : f.HasIndex → room = true)
    (hunfinished : r.filter.isFinished = false)
    (hscores : r.tree.root.IsComparable c.explorationWeight (lastAction indexed)) (episode : Nat) :
    ∃ reward r', r.tree.sample episode r.source r.filter = (.decided reward, r') ∧ 0 ≤ reward ∧
      r'.IsReady c indexed f ∧ r.filter.cursor < r'.filter.cursor := by
  have hkind : (r.tree.node 0).kind = .root :=
    congrArg (fun offer => offer.1) h.sound.shaped.root
  -- There are attempts enough to prune all actions but the last.
  have hlength : r.tree.root.unpruned.length ≤ (r.tree.node 0).actions.size + 1 := by
    refine (List.length_filter_le _ _).trans ?_
    rw [List.length_range]
    exact Nat.le_succ _
  have htrying : r.IsTrying c indexed r.filter := ⟨h.sound, hscores, h.root, rfl⟩
  obtain ⟨reward, r', heq, hreward, hsound, hroot, hfilter, hlt⟩ :=
    htrying.attempt (h.filter.leads hfits hroom hindexed hunfinished) hroom hexploration episode
      (r.tree.nrPredicates + 1) (show c.Offers FilterChoice.start.batches from Or.inl rfl) hlength
  refine ⟨reward, r', ?_, hreward, ⟨hsound, hroot, hfilter⟩, hlt⟩
  unfold FilterTree.sample sampleNode
  dsimp only
  rw [if_neg (by rw [hkind]; decide)]
  exact heq

end Run

end FilterTree

end AdaptiveJoin
