import AdaptiveJoin.Filter.Tree
import AdaptiveJoin.Proofs.Filter.Calls

/-!
# Episodes of a filter tree

An episode changes the filter by calls only, with the slices and the numbers of batches that the
configuration offers.  It ends with the first call that decides a slice; until then it selects
actions, creates nodes and prunes, from then on it records.  Where it asks for more room than a
vector can have, it ends without a slice.

* `FilterTree.Invariant.sampleNode`: what these steps keep of the tree, and calls of the filter, is
  kept behind any node.
* `FilterTree.sample_keeps`: what calls keep is kept by an episode.
-/

namespace AdaptiveJoin

/-! ### Slices and batches of a configuration -/

/-- The number of rows of a step that splits them into some number of batches. -/
def FilterConfig.rowsOfStep (c : FilterConfig) (batches : UInt64) : UInt64 :=
  if 0 < batches then c.parallelRowsPerStep else c.rowsPerStep

/-- No number of batches that a filter tree offers is larger. -/
def FilterConfig.maxBatches (c : FilterConfig) : Nat :=
  c.rowParallelActions.toNat * c.rowParallelDelta.toNat

/-- The numbers of batches of slices: none for a slice that is not split, and what nodes offer for
one that is. -/
def FilterConfig.Offers (c : FilterConfig) (batches : UInt64) : Prop :=
  batches = 0 ∨ c.rowParallelism = true ∧ .batches batches ∈ FilterTree.batchActions c

/-- The slices and the batches of a configuration do not overflow on tables of some number of
rows. -/
structure FilterConfig.Fits (c : FilterConfig) (rows : Nat) : Prop where
  rowsPerStep : c.rowsPerStep.toNat + rows < 2 ^ 64
  parallelRowsPerStep : c.parallelRowsPerStep.toNat + rows < 2 ^ 64
  batches : c.maxBatches + rows ≤ 2 ^ 32

/-- The default configuration fits small tables. -/
theorem FilterConfig.fits_default {rows : Nat} (h : rows < 2 ^ 31) :
    ({} : FilterConfig).Fits rows := by
  have hrows : ({} : FilterConfig).rowsPerStep.toNat = 1000 := rfl
  have hparallel : ({} : FilterConfig).parallelRowsPerStep.toNat = 10000 := rfl
  have hbatches : ({} : FilterConfig).maxBatches = 6 := rfl
  constructor <;> omega

/-- The batches that nodes offer are not more than the largest number of them. -/
theorem FilterTree.toNat_le_of_mem_batchActions {c : FilterConfig} {batches : UInt64}
    (h : .batches batches ∈ batchActions c) : batches.toNat ≤ c.maxBatches := by
  obtain ⟨a, ha, heq⟩ := Array.mem_map.1 h
  rw [Array.mem_range] at ha
  rw [← FilterAction.batches.inj heq, UInt64.toNat_mul, UInt64.toNat_ofNat']
  calc a % 2 ^ 64 * c.rowParallelDelta.toNat % 2 ^ 64
    _ ≤ a % 2 ^ 64 * c.rowParallelDelta.toNat := Nat.mod_le _ _
    _ ≤ a * c.rowParallelDelta.toNat := Nat.mul_le_mul_right _ (Nat.mod_le _ _)
    _ ≤ c.maxBatches := Nat.mul_le_mul_right _ (Nat.le_of_lt ha)

theorem FilterConfig.Offers.toNat_le {c : FilterConfig} {batches : UInt64} (h : c.Offers batches) :
    batches.toNat ≤ c.maxBatches := by
  rcases h with rfl | ⟨-, h⟩
  · exact Nat.zero_le _
  · exact FilterTree.toNat_le_of_mem_batchActions h

/-- Calls with the slices and batches of a configuration that fits the table do not overflow. -/
theorem FilterConfig.Fits.fits {c : FilterConfig} {f : TableFilter} (h : c.Fits f.cardinality)
    {batches : UInt64} (hbatches : c.Offers batches) : f.Fits (c.rowsOfStep batches) batches where
  budget := by
    unfold FilterConfig.rowsOfStep
    split
    · exact h.parallelRowsPerStep
    · exact h.rowsPerStep
  batches := by
    have := h.batches
    have := hbatches.toNat_le
    omega

/-! ### Calls of a configuration -/

/-- What is known once a call or an episode has answered: `after` if a slice is decided, for a
reward that is not negative, and `before` if not.  Whether it may have no room is a condition of its
own. -/
def FilterAnswer.Ends {σ : Type} (before after : σ → Prop) (mayOverflow : Prop) :
    FilterAnswer × σ → Prop
  | (.decided reward, s) => 0 ≤ reward ∧ after s
  | (.refused, s) => before s
  | (.overflow, s) => mayOverflow ∧ before s

/-- Calls with the slices and batches of a configuration keep a property of filters. -/
def FilterConfig.Keeps (c : FilterConfig) (P : TableFilter → Prop) : Prop :=
  ∀ f choice, P f → c.Offers choice.batches →
    P (f.execute (c.rowsOfStep choice.batches) choice).2

/-- Calls with the slices and batches of a configuration lead from one property of filters to
another one, unless they come to no slice. -/
def FilterConfig.Leads (c : FilterConfig) (P Q : TableFilter → Prop) (mayOverflow : Prop) : Prop :=
  ∀ f choice, P f → c.Offers choice.batches →
    FilterAnswer.Ends P Q mayOverflow (f.execute (c.rowsOfStep choice.batches) choice)

/-- Calls have no room under a condition at most. -/
def FilterConfig.Overflows (c : FilterConfig) (P : TableFilter → Prop) (mayOverflow : Prop) :
    Prop :=
  ∀ f choice, P f → c.Offers choice.batches →
    (f.execute (c.rowsOfStep choice.batches) choice).1 = .overflow → mayOverflow

theorem FilterConfig.Keeps.leads {c : FilterConfig} {P : TableFilter → Prop} {mayOverflow : Prop}
    (h : c.Keeps P) (hroom : c.Overflows P mayOverflow) : c.Leads P P mayOverflow := by
  intro f choice hf hoffers
  have hkeeps := h f choice hf hoffers
  have hroom := hroom f choice hf hoffers
  have hreward (reward : Float) := @TableFilter.zero_le_execute f (c.rowsOfStep choice.batches)
    choice reward
  generalize f.execute (c.rowsOfStep choice.batches) choice = result at hkeeps hroom hreward ⊢
  obtain ⟨answer, f'⟩ := result
  cases answer with
  | decided reward => exact ⟨hreward reward rfl, hkeeps⟩
  | refused => exact hkeeps
  | overflow => exact ⟨hroom rfl, hkeeps⟩

/-- An action does not split slices, or into batches that a configuration offers. -/
def FilterAction.IsOffered (c : FilterConfig) : FilterAction → Prop
  | .batches count => c.Offers count
  | _ => True

theorem FilterChoice.offers_apply {c : FilterConfig} {choice : FilterChoice}
    (hchoice : c.Offers choice.batches) (nrPredicates : Nat) {action : FilterAction}
    (haction : action.IsOffered c) : c.Offers (choice.apply nrPredicates action).batches := by
  cases action with
  | batches count => exact haction
  | evaluate p => exact hchoice
  | indexOn p => exact hchoice
  | conjunctive => exact hchoice

/-! ### Nodes -/

/-- All actions of a node are offered by a configuration. -/
def FilterNode.IsOffered (n : FilterNode) (c : FilterConfig) : Prop :=
  ∀ action ∈ n.actions, action.IsOffered c

namespace FilterNode

variable {n : FilterNode} {c : FilterConfig}

theorem IsOffered.getD (h : n.IsOffered c) (action : Nat) :
    (n.actions[action]?.getD default).IsOffered c := by
  cases haction : n.actions[action]? with
  | none => trivial
  | some a => exact h a (Array.mem_of_getElem? haction)

theorem isOffered_default : (default : FilterNode).IsOffered c :=
  fun _ haction => absurd haction (Array.not_mem_empty _)

/-- A node without actions. -/
theorem isOffered_leaf (episode : Nat) (chosen : List Nat) :
    (start .leaf episode chosen #[]).IsOffered c :=
  fun _ haction => absurd haction (Array.not_mem_empty _)

/-- Selecting an action changes the untried actions of the node at most. -/
theorem exists_untried_select? {γ : Type} [RandomSource γ] (n : FilterNode) (exploration : Float)
    (g : γ) : ∃ untried, (n.select? exploration g).2.1 = { n with untried := untried } := by
  unfold select?
  dsimp only
  split
  · exact ⟨_, rfl⟩
  · split <;> exact ⟨_, rfl⟩

end FilterNode

namespace FilterTree

/-- The nodes of a tree offer batches of its configuration only. -/
structure IsBounded (t : FilterTree) (c : FilterConfig) : Prop where
  config_eq : t.config = c
  nodes : ∀ n ∈ t.nodes, n.IsOffered c

variable {t t' : FilterTree} {c : FilterConfig} {n : FilterNode}

theorem IsBounded.node (h : t.IsBounded c) (id : Nat) : (t.node id).IsOffered c := by
  unfold FilterTree.node
  cases hnode : t.nodes[id]? with
  | none => exact FilterNode.isOffered_default
  | some n => exact h.nodes n (Array.mem_of_getElem? hnode)

/-- **A new node offers batches of the configuration**, if it offers any. -/
theorem IsBounded.predicateNode? (h : t.IsBounded c) {kind : FilterNode.Kind} {episode : Nat}
    {chosen : List Nat} (hnode : t.predicateNode? kind episode chosen = some n) :
    n.IsOffered c := by
  unfold FilterTree.predicateNode? batchNode? at hnode
  rw [h.config_eq] at hnode
  split at hnode
  · split at hnode
    · rename_i hparallel
      split at hnode
      · obtain rfl := Option.some.inj hnode
        -- A row-parallel node offers numbers of batches, any other one offers predicates.
        intro action haction
        obtain ⟨a, -, rfl⟩ := Array.mem_map.1 haction
        exact Or.inr ⟨hparallel, haction⟩
      · exact absurd hnode nofun
    · obtain rfl := Option.some.inj hnode
      exact FilterNode.isOffered_leaf _ _
  · obtain rfl := Option.some.inj hnode
    intro action haction
    obtain ⟨p, -, rfl⟩ := List.mem_map.1 (List.mem_toArray.1 haction)
    trivial

theorem IsBounded.childNode? (h : t.IsBounded c) {parent : FilterNode} {action : FilterAction}
    {episode : Nat} (hnode : t.childNode? parent action episode = some n) : n.IsOffered c := by
  cases action with
  | evaluate p => exact h.predicateNode? hnode
  | indexOn p => exact h.predicateNode? hnode
  | conjunctive => exact Option.some.inj hnode ▸ FilterNode.isOffered_leaf _ _
  | batches count => exact Option.some.inj hnode ▸ FilterNode.isOffered_leaf _ _

theorem IsBounded.modifyNode (h : t.IsBounded c) (id : Nat) {f : FilterNode → FilterNode}
    (hf : ∀ n, n.IsOffered c → (f n).IsOffered c) : (t.modifyNode id f).IsBounded c := by
  refine ⟨h.config_eq, fun n hn => ?_⟩
  obtain ⟨i, hi, rfl⟩ := Array.getElem_of_mem hn
  simp only [FilterTree.modifyNode, Array.size_modify] at hi
  simp only [FilterTree.modifyNode, Array.getElem_modify]
  split
  · exact hf _ (h.nodes _ (Array.getElem_mem hi))
  · exact h.nodes _ (Array.getElem_mem hi)

theorem IsBounded.expand? (h : t.IsBounded c) {id action episode : Nat}
    (hexpand : t.expand? id action episode = some t') : t'.IsBounded c := by
  unfold FilterTree.expand? at hexpand
  dsimp only at hexpand
  split at hexpand
  · exact Option.some.inj hexpand ▸ h
  · obtain ⟨child, hchild, rfl⟩ := Option.map_eq_some_iff.1 hexpand
    have hmodify := h.modifyNode id (f := fun n =>
      { n with children := n.children.setIfInBounds action (some t.nodes.size) }) fun _ hn => hn
    refine ⟨h.config_eq, fun n hn => ?_⟩
    rcases Array.mem_push.1 hn with hn | rfl
    · exact hmodify.nodes n hn
    · exact h.childNode? hchild

/-- **A tree without episodes is bounded.** -/
theorem isBounded_start (indexed : List Bool) (c : FilterConfig) :
    (FilterTree.start indexed c).IsBounded c := by
  refine ⟨rfl, fun n hn action haction => ?_⟩
  obtain rfl := Array.mem_singleton.1 hn
  simp only [FilterNode.start, List.mem_toArray, List.mem_append, List.mem_map,
    List.mem_singleton] at haction
  rcases haction with (⟨p, -, rfl⟩ | ⟨p, -, rfl⟩) | rfl <;> trivial

/-! ### Episodes -/

/-- Changing a node depends on what becomes of that node only. -/
theorem modifyNode_congr {id : Nat} {f g : FilterNode → FilterNode}
    (h : f (t.node id) = g (t.node id)) : t.modifyNode id f = t.modifyNode id g := by
  have hnodes : t.nodes.modify id f = t.nodes.modify id g := by
    refine Array.ext (by simp) fun i hi _ => ?_
    rw [Array.size_modify] at hi
    rw [Array.getElem_modify, Array.getElem_modify]
    split
    · rename_i heq
      subst heq
      rwa [node, Array.getElem?_eq_getElem hi] at h
    · rfl
  rw [modifyNode, modifyNode, hnodes]

/-- What the steps of an episode keep of a tree: one property until a slice is decided, and another
one from then on.  Nodes before the node `first` are not changed. -/
structure Invariant (c : FilterConfig) (first : Nat) (before after : FilterTree → Prop)
    (mayOverflow : Prop) : Prop where
  bounded : ∀ {t}, before t → t.IsBounded c
  child : ∀ {t}, before t → ∀ {id action child}, first ≤ id →
    (t.node id).child? action = some child → first ≤ child
  select : ∀ {t}, before t → ∀ {id}, first ≤ id → ∀ untried,
    before (t.modifyNode id fun n => { n with untried := untried })
  room : ∀ {t}, before t → ∀ {id action episode}, t.expand? id action episode = none → mayOverflow
  expand : ∀ {t t'}, before t → ∀ {id action episode}, first ≤ id →
    t.expand? id action episode = some t' → before t'
  prune : ∀ {t}, before t → ∀ {id}, first ≤ id → ∀ action,
    before (t.modifyNode id (·.prune action))
  decide : ∀ {t}, before t → after t
  record : ∀ {t}, after t → ∀ {id}, first ≤ id → ∀ action {reward}, 0 ≤ reward →
    after (t.modifyNode id (·.record action reward))

/-- New nodes have no room under a condition at most. -/
def Overflows (c : FilterConfig) (mayOverflow : Prop) : Prop :=
  ∀ {t : FilterTree} {id action episode : Nat}, t.IsBounded c →
    t.expand? id action episode = none → mayOverflow

/-- Bounded trees stay bounded. -/
theorem invariant_isBounded {c : FilterConfig} {mayOverflow : Prop} (h : Overflows c mayOverflow) :
    Invariant c 0 (·.IsBounded c) (·.IsBounded c) mayOverflow where
  bounded h := h
  child _ _ _ _ _ _ := Nat.zero_le _
  select h _ _ _ := h.modifyNode _ fun _ hn => hn
  room ht _ _ _ hexpand := h ht hexpand
  expand h _ _ _ _ hexpand := h.expand? hexpand
  prune h _ _ _ := h.modifyNode _ fun _ hn => hn
  decide h := h
  record h _ _ _ _ _ := h.modifyNode _ fun _ hn => hn

/-- What is known of the tree and of the filter. -/
structure Run.Holds {γ : Type} (r : Run γ) (T : FilterTree → Prop) (P : TableFilter → Prop) :
    Prop where
  tree : T r.tree
  filter : P r.filter

namespace Invariant

variable {γ : Type} [RandomSource γ] {r : Run γ} {first : Nat} {B A : FilterTree → Prop}
  {P Q : TableFilter → Prop} {mayOverflow : Prop} (hI : Invariant c first B A mayOverflow)
  (hP : c.Leads P Q mayOverflow)

include hI

/-- Selecting an action leaves the filter alone, and the choice stays within the batches that the
configuration offers. -/
theorem select? (hr : r.Holds B P) {id : Nat} (hid : first ≤ id) {choice : FilterChoice}
    (hchoice : c.Offers choice.batches) :
    (r.select? id choice).2.Holds B P ∧
      ∀ action branch, (r.select? id choice).1 = some (action, branch) →
        c.Offers branch.batches := by
  unfold Run.select?
  obtain ⟨untried, hnode⟩ := (r.tree.node id).exists_untried_select?
    r.tree.config.explorationWeight r.source
  generalize (r.tree.node id).select? r.tree.config.explorationWeight r.source = selected at hnode ⊢
  obtain ⟨action?, node, source⟩ := selected
  dsimp only at hnode ⊢
  have hoffered : node.IsOffered c := by
    intro action haction
    rw [hnode] at haction
    exact (hI.bounded hr.tree).node id action haction
  have htree : B (r.tree.modifyNode id fun _ => node) := by
    -- Selecting an action changes no more than the list of untried ones.
    rw [modifyNode_congr (g := fun n => { n with untried := untried }) hnode]
    exact hI.select hr.tree hid untried
  refine ⟨⟨htree, hr.filter⟩, fun action branch h => ?_⟩
  obtain ⟨action', -, heq⟩ := Option.map_eq_some_iff.1 h
  obtain ⟨rfl, rfl⟩ := Prod.mk.inj heq
  exact FilterChoice.offers_apply hchoice _ (hoffered.getD action')

include hP

omit [RandomSource γ] in
theorem execute (hr : r.Holds B P) {choice : FilterChoice} (hchoice : c.Offers choice.batches) :
    FilterAnswer.Ends (·.Holds B P) (·.Holds A Q) mayOverflow (r.execute choice) := by
  have hconfig := (hI.bounded hr.tree).config_eq
  have hends := hP r.filter choice hr.filter hchoice
  unfold Run.execute
  dsimp only
  rw [hconfig]
  change FilterAnswer.Ends _ _ _
    ((r.filter.execute (c.rowsOfStep choice.batches) choice).1, { r with
      filter := (r.filter.execute (c.rowsOfStep choice.batches) choice).2 })
  -- Only the filter has changed; what its answer tells depends on the call alone.
  generalize r.filter.execute (c.rowsOfStep choice.batches) choice = result at hends ⊢
  obtain ⟨answer, f⟩ := result
  cases answer with
  | decided reward => exact ⟨hends.1, hI.decide hr.tree, hends.2⟩
  | refused => exact ⟨hr.tree, hends⟩
  | overflow => exact ⟨hends.1, hr.tree, hends.2⟩

theorem playout (hr : r.Holds B P) (id : Nat) {choice : FilterChoice}
    (hchoice : c.Offers choice.batches) :
    FilterAnswer.Ends (·.Holds B P) (·.Holds A Q) mayOverflow (r.playout id choice) := by
  unfold Run.playout
  have hshuffled : ∀ source, ({ r with source := source } : Run γ).Holds B P :=
    fun _ => ⟨hr.tree, hr.filter⟩
  apply hI.execute hP (hshuffled _)
  split
  · exact hchoice
  · exact Or.inl rfl

/-- What an episode does behind a node from `first` on. -/
def Descends (c : FilterConfig) (first : Nat) (before after : Run γ → Prop) (mayOverflow : Prop)
    (descend : Nat → FilterChoice → Run γ → FilterAnswer × Run γ) : Prop :=
  ∀ {id choice r}, first ≤ id → before r → c.Offers choice.batches →
    FilterAnswer.Ends before after mayOverflow (descend id choice r)

variable {descend : Nat → FilterChoice → Run γ → FilterAnswer × Run γ}

theorem follow (hdescend : Descends c first (·.Holds B P) (·.Holds A Q) mayOverflow descend)
    (hr : r.Holds B P) (id action : Nat)
    (hchild : ∀ child, (r.tree.node id).child? action = some child → first ≤ child)
    {choice : FilterChoice} (hchoice : c.Offers choice.batches) :
    FilterAnswer.Ends (·.Holds B P) (·.Holds A Q) mayOverflow
      (r.follow descend id action choice) := by
  unfold Run.follow
  split
  · rename_i child heq
    exact hdescend (hchild child heq) hr hchoice
  · exact hI.playout hP hr id hchoice

theorem attempt (hdescend : Descends c first (·.Holds B P) (·.Holds A Q) mayOverflow descend)
    (hr : r.Holds B P) (episode : Nat) {id : Nat} (hid : first ≤ id) {choice : FilterChoice}
    (hchoice : c.Offers choice.batches) (attempts : Nat) :
    FilterAnswer.Ends (·.Holds B P) (·.Holds A Q) mayOverflow
      (r.attempt descend episode id choice attempts) := by
  induction attempts generalizing r with
  | zero => exact hr
  | succ attempts ih =>
    unfold Run.attempt
    obtain ⟨hselected, hbranch⟩ := hI.select? hr hid hchoice
    split
    · -- No action is left.
      rename_i hselect
      rwa [hselect] at hselected
    rename_i action branch r' hselect
    rw [hselect] at hselected hbranch
    dsimp only at hselected
    split
    · -- There is no room for the node behind the action.
      rename_i hexpand
      exact ⟨hI.room hselected.tree hexpand, hselected⟩
    rename_i tree hexpand
    have hexpanded : ({ r' with tree := tree } : Run γ).Holds B P :=
      ⟨hI.expand hselected.tree hid hexpand, hselected.filter⟩
    have hfollowed := hI.follow hP hdescend hexpanded id action
      (fun _ => hI.child hexpanded.tree hid) (hbranch action branch rfl)
    split
    · rename_i hfollow
      rw [hfollow] at hfollowed
      -- A slice has been decided, and its reward is recorded.
      obtain ⟨hreward, hdecided⟩ := hfollowed
      exact ⟨hreward, hI.record hdecided.tree hid action hreward, hdecided.filter⟩
    · -- The action is refused, so the next attempt starts from what is known before a slice.
      rename_i hfollow
      rw [hfollow] at hfollowed
      exact ih ⟨hI.prune hfollowed.tree hid action, hfollowed.filter⟩
    · rename_i hfollow
      rw [hfollow] at hfollowed
      exact hfollowed

/-- **Going on in a node from `first` on keeps what the steps of an episode keep.** -/
theorem sampleNode (episode levels : Nat) :
    Descends c first (·.Holds B P) (·.Holds A Q) mayOverflow
      (Run.sampleNode (γ := γ) episode levels) := by
  induction levels with
  | zero => exact fun _ hr _ => hr
  | succ levels ih =>
    intro id choice r hid hr hchoice
    unfold Run.sampleNode
    dsimp only
    split
    · exact hI.execute hP hr hchoice
    · exact hI.attempt hP ih hr episode hid hchoice _

end Invariant

/-- **An episode ends as calls do.** -/
theorem sample_ends {γ : Type} [RandomSource γ] {P Q : TableFilter → Prop} {mayOverflow : Prop}
    (hP : c.Leads P Q mayOverflow) (hroom : Overflows c mayOverflow) (ht : t.IsBounded c)
    (episode : Nat) (source : γ) {filter : TableFilter} (hfilter : P filter) :
    FilterAnswer.Ends (·.Holds (·.IsBounded c) P) (·.Holds (·.IsBounded c) Q) mayOverflow
      (t.sample episode source filter) := by
  have hrun : Run.Holds ⟨t, source, filter⟩ (·.IsBounded c) P := ⟨ht, hfilter⟩
  exact (invariant_isBounded hroom).sampleNode hP episode (t.nrPredicates + 3)
    (Nat.zero_le 0) hrun (show c.Offers FilterChoice.start.batches from Or.inl rfl)

/-- **An episode keeps what calls keep.** -/
theorem sample_keeps {γ : Type} [RandomSource γ] {P : TableFilter → Prop} (hP : c.Keeps P)
    (ht : t.IsBounded c) (episode : Nat) (source : γ) {filter : TableFilter} (hfilter : P filter) :
    (t.sample episode source filter).2.Holds (·.IsBounded c) P := by
  have hroom : c.Overflows P True := fun _ _ _ _ _ => trivial
  have hends := sample_ends (hP.leads hroom) (fun _ _ => trivial) ht episode source hfilter
  generalize t.sample episode source filter = result at hends ⊢
  obtain ⟨answer, r⟩ := result
  cases answer with
  | decided reward => exact hends.2
  | refused => exact hends
  | overflow => exact hends.2

end FilterTree

end AdaptiveJoin
