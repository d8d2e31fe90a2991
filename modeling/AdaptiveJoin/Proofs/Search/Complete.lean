import AdaptiveJoin.Proofs.Query.Built
import AdaptiveJoin.Proofs.Search.Admissible
import AdaptiveJoin.Proofs.Search.Growth

/-!
# An admissible order is found if there is one

If executed orders are never worth less than nothing, an episode never takes a choice back: a table
that may be joined next belongs to some admissible order whenever the tables before it do.  So an
episode executes one admissible order if there is any, at the first attempt at every node
(`OrderTree.Run.attempt_finds`), and leaves no record if there is none
(`OrderTree.Run.attempt_fails`).

`OrderTree.sample_answers` says so for every kind of state in which orders are executed, and
`OrderTree.sample_admissible` counts the executions, for the trees that episodes can build.
-/

namespace AdaptiveJoin

namespace OrderNode

variable {n n' : OrderNode} {q : Query}

/-- The tables of a node determine its actions. -/
theorem IsFor.actions_eq_of_path (h : n.IsFor q) (h' : n'.IsFor q) (hpath : n'.path = n.path) :
    n'.actions = n.actions := by
  apply Array.toList_inj.1
  rw [h.actions_eq, h'.actions_eq, h.joined_eq, h'.joined_eq, hpath]

theorem IsFor.size_add_size (h : n.IsFor q) (hle : q.nrTables ≤ maxTables) :
    n.path.size + n.actions.size = q.nrTables := by
  have := (h.perm hle).length_eq
  rwa [List.length_append, List.length_range] at this

/-- An action may be selected exactly if its table is not excluded and is allowed next. -/
theorem IsFor.isAdmissible_iff (h : n.IsFor q) {limits : OrderTree.Limits}
    (hpath : limits.Allows n.path.toList) {excluded : TableSet} {action : Nat} :
    OrderTree.isAdmissible limits excluded n action = true ↔
      excluded.contains (n.tableOf action) = false ∧
        limits.Allows (n.path.toList ++ [n.tableOf action]) := by
  rw [OrderTree.Limits.allows_concat_iff, ← h.joined_eq]
  unfold OrderTree.isAdmissible
  simp only [Bool.and_eq_true, Bool.not_eq_true', Bool.and_eq_false_iff, and_assoc]
  refine and_congr_right fun _ => ?_
  -- Only in front of all tables do the exhausted roots matter.
  constructor
  · rintro ⟨hroot, hpermits⟩
    refine ⟨hpath, fun hnil => hroot.resolve_left fun hne => ?_, hpermits⟩
    rw [Array.toList_eq_nil_iff.1 hnil] at hne
    exact absurd hne (by decide)
  · rintro ⟨-, hroot, hpermits⟩
    refine ⟨?_, hpermits⟩
    by_cases hempty : n.path.isEmpty = true
    · exact Or.inr (hroot (Array.toList_eq_nil_iff.2 (Array.isEmpty_iff.1 hempty)))
    · exact Or.inl (Bool.not_eq_true _ ▸ hempty)

end OrderNode

namespace OrderTree

namespace Run

variable {γ σ : Type}

/-- An admissible order has been executed, once, and its reward is the answer. -/
def Finds (q : Query) (run : Execute σ) (limits : Limits) (r : Run γ σ)
    (result : Option Float × Run γ σ) : Prop :=
  ∃ order : JoinOrder, order.IsAdmissible limits q.nrTables ∧
    result.1 = some (run order r.world).1 ∧ result.2.world = (run order r.world).2

/-- No order has been executed and nothing has been recorded. -/
structure Fails (r : Run γ σ) (result : Option Float × Run γ σ) : Prop where
  answer : result.1 = none
  world : result.2.world = r.world
  stats : r.tree.KeepsStats result.2.tree

/-- An admissible order has been executed exactly if some tables can be completed to one. -/
def Answers (q : Query) (run : Execute σ) (limits : Limits) (tables : List Nat) (r : Run γ σ)
    (result : Option Float × Run γ σ) : Prop :=
  (limits.CanComplete q.nrTables tables ∧ r.Finds q run limits result) ∨
    (¬limits.CanComplete q.nrTables tables ∧ r.Fails result)

/-- An episode stands at a node whose tables are allowed. -/
structure IsAt (q : Query) (limits : Limits) (r : Run γ σ) (id : Nat) (n : OrderNode) : Prop where
  isFor : r.tree.IsFor q
  isLinked : r.tree.IsLinked
  node : r.tree.node? id = some n
  allows : limits.Allows n.path.toList

variable {q : Query} {run : Execute σ} {limits : Limits} {r r' : Run γ σ} {id : Nat}
  {n : OrderNode} {excluded : TableSet} {action : Nat} {tables : List Nat}
  {result : Option Float × Run γ σ}

theorem IsAt.isFor_node (h : r.IsAt q limits id n) : n.IsFor q := h.isFor.node id n h.node

/-- Steps before that execute and record nothing do not matter. -/
theorem Fails.of_keepsStats (h : r'.Fails result) (hworld : r'.world = r.world)
    (hstats : r.tree.KeepsStats r'.tree) : r.Fails result :=
  ⟨h.answer, h.world.trans hworld, hstats.trans h.stats⟩

theorem Answers.of_keepsStats (h : r'.Answers q run limits tables result)
    (hworld : r'.world = r.world) (hstats : r.tree.KeepsStats r'.tree) :
    r.Answers q run limits tables result := by
  rcases h with ⟨hcan, hfinds⟩ | ⟨hcan, hfails⟩
  · unfold Finds at hfinds
    rw [hworld] at hfinds
    exact Or.inl ⟨hcan, hfinds⟩
  · exact Or.inr ⟨hcan, hfails.of_keepsStats hworld hstats⟩

variable [RandomSource γ] (hle : q.nrTables ≤ maxTables)

/-! ### Going on behind an action -/

include hle

/-- **A random completion answers rightly**, although it never takes a choice back. -/
theorem playout_answers (hn : n.IsFor q) {first : Nat} (hfirst : first ∈ n.actions)
    (hallows : limits.Allows (n.path.toList ++ [first])) :
    r.Answers q run limits (n.path.toList ++ [first]) (r.playout run limits n first) := by
  unfold Run.playout
  have hshuffle := RandomSource.shuffle_perm (n.actions.filter (· != first)) r.source
  generalize RandomSource.shuffle (n.actions.filter (· != first)) r.source = shuffled at hshuffle ⊢
  obtain ⟨remaining, source⟩ := shuffled
  dsimp only at hshuffle ⊢
  have hperm := hn.perm_of_mem hle hfirst
  rw [Array.toList_append, Array.toList_push] at hperm
  have hjoined : n.joined.insert first = (n.path.toList ++ [first]).foldl TableSet.insert ∅ := by
    rw [List.foldl_append, hn.joined_eq]
    rfl
  -- The permitted completions are those of the remaining tables.
  have hrules (rest : List Nat) (h : permitsAll limits.rules (n.joined.insert first) rest = true) :
      limits.Allows (n.path.toList ++ [first] ++ rest) := by
    refine ⟨fun table htable => hallows.root table ?_, ?_⟩
    · rwa [List.head?_append_of_ne_nil _ (by simp)] at htable
    · rw [permitsAll_append, ← hjoined, hallows.rules, h]
      rfl
  split
  · rename_i hnone
    refine Or.inr ⟨?_, rfl, rfl, .refl _⟩
    rintro ⟨rest, hrest, hpermits⟩
    have hrest' := (List.perm_append_left_iff _).1 (hrest.trans hperm.symm)
    have hremaining := hrest'.trans (Array.perm_iff_toList_perm.1 hshuffle).symm
    have hpermits' := hpermits.rules
    rw [permitsAll_append, ← hjoined, Bool.and_eq_true] at hpermits'
    obtain ⟨order, horder⟩ : ∃ order, r.tree.complete? limits remaining.size remaining
        (n.joined.insert first) (n.path.push first) = some order :=
      complete?_isSome rfl hremaining hpermits'.2
    rw [hnone] at horder
    exact absurd horder (by simp)
  · rename_i order horder
    obtain ⟨rest, hrest, hpermits⟩ := permitsAll_of_complete? horder
    rw [Array.toList_push] at hrest
    have hcomplete := (perm_of_complete? rfl horder).trans (.append (.refl _) hshuffle)
    have hall : order.toList.Perm (List.range q.nrTables) := by
      have := Array.perm_iff_toList_perm.1 hcomplete
      rw [Array.toList_append, Array.toList_push] at this
      exact this.trans hperm
    have hadmissible := hrules rest hpermits
    rw [← hrest] at hadmissible
    exact Or.inl ⟨⟨rest, hrest ▸ hall, hrest ▸ hadmissible⟩, ⟨order⟩, ⟨hall, hadmissible⟩, rfl, rfl⟩

omit [RandomSource γ] in
/-- Adding a node behind an action of a node keeps the episode there. -/
theorem IsAt.expand (h : r.IsAt q limits id n) (haction : action < n.actions.size) :
    (r.expand id n action).tree.IsFor q ∧ (r.expand id n action).tree.IsLinked ∧
      r.tree.Grows (r.expand id n action).tree ∧ (r.expand id n action).world = r.world ∧
        r.tree.KeepsStats (r.expand id n action).tree := by
  unfold Run.expand
  split
  · refine ⟨h.isFor.expand hle fun n' hn' => ?_, h.isLinked.expand _ _, grows_expand _ _ _, rfl,
      keepsStats_expand _ _ _⟩
    obtain rfl := Option.some.inj (h.node.symm.trans hn')
    exact haction
  · exact ⟨h.isFor, h.isLinked, .refl _, rfl, .refl _⟩

/-- Behind an action an episode goes on in a node that lists the table of the action as well, or at
random. -/
theorem IsAt.follow_cases (h : r.IsAt q limits id n) (run : Execute σ)
    (descend : Nat → Run γ σ → Option Float × Run γ σ) (haction : action < n.actions.size)
    (hallows : limits.Allows (n.path.toList ++ [n.tableOf action])) :
    (∃ child c, r.follow run descend limits id n action = descend child (r.expand id n action) ∧
      (r.expand id n action).IsAt q limits child c ∧ c.path = n.path.push (n.tableOf action)) ∨
    r.follow run descend limits id n action =
      (r.expand id n action).playout run limits n (n.tableOf action) := by
  obtain ⟨hfor, hlinked, hgrows, -, -⟩ := h.expand hle haction
  unfold Run.follow
  dsimp only
  split
  · rename_i child hchild
    obtain ⟨n', hn', hchild'⟩ := Option.bind_eq_some_iff.1 hchild
    obtain ⟨m, hm, hpath⟩ := hgrows id n h.node
    obtain rfl := Option.some.inj (hn'.symm.trans hm)
    have hactions := h.isFor_node.actions_eq_of_path (hfor.node id n' hn') hpath
    have htable : n'.tableOf action = n.tableOf action := by
      unfold OrderNode.tableOf
      rw [hactions]
    -- The node behind the action stands for the path with the table of the action.
    obtain ⟨c, hc, hcpath⟩ := hlinked.child hn' hchild'
    rw [hpath, htable] at hcpath
    refine Or.inl ⟨child, c, rfl, ⟨hfor, hlinked, hc, ?_⟩, hcpath⟩
    rwa [hcpath, Array.toList_push]
  · exact Or.inr rfl

/-- What an episode does behind an action answers rightly if what it does in nodes does. -/
theorem follow_answers {descend : Nat → Run γ σ → Option Float × Run γ σ} (h : r.IsAt q limits id n)
    (hdescend : ∀ id' (r' : Run γ σ) n', r'.IsAt q limits id' n' →
      n'.path.size = n.path.size + 1 → r'.Answers q run limits n'.path.toList (descend id' r'))
    (haction : action < n.actions.size)
    (hallows : limits.Allows (n.path.toList ++ [n.tableOf action])) :
    r.Answers q run limits (n.path.toList ++ [n.tableOf action])
      (r.follow run descend limits id n action) := by
  obtain ⟨-, -, -, hworld, hstats⟩ := h.expand hle haction
  refine Answers.of_keepsStats ?_ hworld hstats
  rcases h.follow_cases hle run descend haction hallows with
    ⟨child, c, heq, hat, hpath⟩ | heq
  · have hanswers := hdescend child _ c hat (by rw [hpath, Array.size_push])
    rwa [hpath, Array.toList_push, ← heq] at hanswers
  · rw [heq]
    exact playout_answers hle h.isFor_node (OrderNode.tableOf_mem haction) hallows

/-! ### Going on in a node -/

variable (hrun : ∀ order world, ¬(run order world).1 < 0)

section Attempt

variable {levels : Nat} (hsize : n.path.size + levels = q.nrTables)
  (ih : ∀ id' (r' : Run γ σ) n', r'.IsAt q limits id' n' → n'.path.size + levels = q.nrTables + 1 →
    r'.Answers q run limits n'.path.toList (sampleNode run limits levels id' r'))

include hsize ih

/-- A selected action is answered rightly, and the episode stays at the node. -/
theorem IsAt.select? (h : r.IsAt q limits id n) {source : γ}
    (hselect : r.tree.select? limits excluded n r.source = (some action, source)) :
    limits.Allows (n.path.toList ++ [n.tableOf action]) ∧ n.tableOf action ∈ n.actions ∧
      r.Answers q run limits (n.path.toList ++ [n.tableOf action])
        (({ r with source := source } : Run γ σ).follow run (sampleNode run limits levels) limits id
          n action) ∧
        ∃ n', (({ r with source := source } : Run γ σ).follow run (sampleNode run limits levels)
          limits id n action).2.IsAt q limits id n' ∧ n'.path = n.path := by
  have hcandidate := mem_of_select? (congrArg Prod.fst hselect)
  have haction := lt_of_mem_candidates hcandidate
  have hallows := ((h.isFor_node.isAdmissible_iff h.allows).1
    (isAdmissible_of_mem_candidates hcandidate)).2
  have hdrawn : ({ r with source := source } : Run γ σ).IsAt q limits id n :=
    ⟨h.isFor, h.isLinked, h.node, h.allows⟩
  refine ⟨hallows, OrderNode.tableOf_mem haction, ?_, ?_⟩
  · -- The episode behind the action answers whatever the choice can be completed to.
    have hanswers := follow_answers hle hdrawn
      (fun id' r' n' hat hpath => ih id' r' n' hat (by omega)) haction hallows
    exact hanswers.of_keepsStats rfl (.refl _)
  · have hI := grows_invariant (γ := γ) hle run r.tree
    have hgrown := (⟨h.isFor, h.isLinked, .refl _⟩ :
      ({ r with source := source } : Run γ σ).tree.IsFor q ∧ _ ∧ r.tree.Grows _)
    have hdescend (id' : Nat) (r' : Run γ σ)
        (hr' : r'.tree.IsFor q ∧ r'.tree.IsLinked ∧ r.tree.Grows r'.tree) :=
      hI.sampleNode hle hr' limits levels id'
    -- Meanwhile the tree has grown, but the node is still there.
    obtain ⟨hfor, hlinked, hgrows⟩ := hI.follow hle hdescend hgrown h.isFor_node
      (fun n' hn' => Option.some.inj (hn'.symm.trans h.node)) haction
    obtain ⟨n', hn', hpath⟩ := hgrows id n h.node
    exact ⟨n', ⟨hfor, hlinked, hn', hpath ▸ h.allows⟩, hpath⟩

include hrun

/-- If the tables of a node can be completed, the attempts end with the first one. -/
theorem IsAt.first_attempt (h : r.IsAt q limits id n)
    (hcan : limits.CanComplete q.nrTables n.path.toList) (hleaf : n.isLeaf = false)
    (attempts : Nat) : ∃ action source, r.tree.select? limits ∅ n r.source = (some action, source) ∧
      let followed := ({ r with source := source } : Run γ σ).follow run
        (sampleNode run limits levels) limits id n action
      let tried := r.attempt run (sampleNode run limits levels) limits id n (attempts + 1) ∅
      r.Finds q run limits followed ∧ tried.1 = followed.1 ∧ tried.2.world = followed.2.world := by
  have hn := h.isFor_node
  have hactions : 0 < n.actions.size := by
    unfold OrderNode.isLeaf at hleaf
    rw [Array.isEmpty_eq_false_iff] at hleaf
    exact Array.size_pos_iff.2 hleaf
  -- Some table can be joined next, so an action is selected, maybe another one.
  obtain ⟨table, hlt, hnew, hallows⟩ := hcan.exists_next (by
    have := hn.size_add_size hle
    rw [Array.length_toList]
    omega)
  obtain ⟨a, ha, rfl⟩ : ∃ a < n.actions.size, n.tableOf a = table :=
    OrderNode.exists_tableOf
      ((hn.mem_actions_iff hle).2 ⟨hlt, fun hmem => hnew (Array.mem_toList_iff.2 hmem)⟩)
  have hadmissible : isAdmissible limits ∅ n a = true :=
    (hn.isAdmissible_iff h.allows).2 ⟨TableSet.contains_empty _, hallows⟩
  obtain ⟨action, haction⟩ := exists_select? (t := r.tree) ha hadmissible r.source
  unfold Run.attempt
  rw [h.node, Option.getD_some]
  dsimp only
  rcases hselect : r.tree.select? limits ∅ n r.source with ⟨action?, source⟩
  rw [hselect] at haction
  obtain rfl : action? = some action := haction
  obtain ⟨hallows, hmem, hanswers, -⟩ := h.select? hle hsize ih hselect
  refine ⟨action, source, rfl, ?_⟩
  dsimp only
  generalize Run.follow run (sampleNode run limits levels) limits id n action
    { r with source := source } = result at hanswers ⊢
  obtain ⟨hlt, hnew⟩ := (hn.mem_actions_iff hle).1 hmem
  have hstill := hcan.concat hallows hlt fun hmem => hnew (Array.mem_toList_iff.1 hmem)
  rcases hanswers with ⟨-, order, horder, hreward, hworld⟩ | ⟨hcannot, -⟩
  · obtain ⟨reward?, r'⟩ := result
    obtain rfl : reward? = _ := hreward
    dsimp only
    rw [if_neg (hrun order r.world)]
    exact ⟨⟨order, horder, rfl, hworld⟩, rfl, rfl⟩
  · exact absurd hstill hcannot

/-- **The first attempt at a node finds an order** if there is one. -/
theorem attempt_finds (h : r.IsAt q limits id n)
    (hcan : limits.CanComplete q.nrTables n.path.toList) (hleaf : n.isLeaf = false)
    (attempts : Nat) :
    r.Finds q run limits
      (r.attempt run (sampleNode run limits levels) limits id n (attempts + 1) ∅) := by
  obtain ⟨action, source, -, ⟨order, horder, hreward, hworld⟩, heq, heqworld⟩ :=
    h.first_attempt hle hrun hsize ih hcan hleaf attempts
  exact ⟨order, horder, heq.trans hreward, heqworld.trans hworld⟩

omit hrun in
/-- **No attempt at a node executes or records anything** if its tables cannot be completed. -/
theorem attempt_fails (h : r.IsAt q limits id n)
    (hcannot : ¬limits.CanComplete q.nrTables n.path.toList) (attempts : Nat)
    (excluded : TableSet) {m : OrderNode} :
    r.Fails (r.attempt run (sampleNode run limits levels) limits id m attempts excluded) := by
  induction attempts generalizing r n m excluded with
  | zero =>
    unfold Run.attempt
    exact ⟨rfl, rfl, .refl _⟩
  | succ attempts hattempts =>
    unfold Run.attempt
    rw [h.node, Option.getD_some]
    dsimp only
    rcases hselect : r.tree.select? limits excluded n r.source with ⟨action?, source⟩
    cases action? with
    | none => exact ⟨rfl, rfl, .refl _⟩
    | some action =>
      obtain ⟨-, -, hanswers, n', hat, hpath⟩ := h.select? hle hsize ih hselect
      dsimp only
      generalize Run.follow run (sampleNode run limits levels) limits id n action
        { r with source := source } = result at hanswers hat ⊢
      rcases hanswers with ⟨hcan, -⟩ | ⟨-, hfails⟩
      · -- What completes the longer choice would complete the shorter one.
        exact absurd hcan.of_concat hcannot
      · obtain ⟨reward?, r'⟩ := result
        obtain rfl : reward? = none := hfails.answer
        dsimp only
        -- The action fails, and so do the attempts that are left.
        exact (hattempts (hpath ▸ hsize) hat (hpath ▸ hcannot) _).of_keepsStats hfails.world
          hfails.stats

end Attempt

include hrun

/-- **What an episode does in a node answers rightly.** -/
theorem sampleNode_answers (levels : Nat) (h : r.IsAt q limits id n)
    (hsize : n.path.size + levels = q.nrTables + 1) :
    r.Answers q run limits n.path.toList (sampleNode run limits levels id r) := by
  induction levels generalizing r id n with
  | zero =>
    have := h.isFor_node.size_add_size hle
    omega
  | succ levels ih =>
    unfold sampleNode
    rw [h.node]
    dsimp only
    by_cases hleaf : n.isLeaf = true
    · rw [if_pos hleaf]
      -- All tables are chosen, and their order is executed.
      have hperm := h.isFor_node.isPermutation_of_isLeaf hle hleaf
      refine Or.inl ⟨⟨[], ?_, ?_⟩, ⟨n.path⟩, ⟨hperm, h.allows⟩, rfl, rfl⟩
      · rw [List.append_nil]
        exact hperm
      · rw [List.append_nil]
        exact h.allows
    · rw [if_neg hleaf]
      have hsize : n.path.size + levels = q.nrTables := by omega
      -- Some action can be completed, or all attempts are in vain.
      by_cases hcan : limits.CanComplete q.nrTables n.path.toList
      · exact Or.inl ⟨hcan, attempt_finds hle hrun hsize (fun _ _ _ hat hpath => ih hat hpath) h
          hcan (Bool.not_eq_true _ ▸ hleaf) _⟩
      · exact Or.inr ⟨hcan,
          attempt_fails hle hsize (fun _ _ _ hat hpath => ih hat hpath) h hcan _ _⟩

end Run

variable {γ σ : Type} [RandomSource γ] {q : Query} {t : OrderTree} {execute : Execute σ}

/-- **An episode executes one admissible order if there is any, and else changes nothing that is
known.** -/
theorem sample_answers (hle : q.nrTables ≤ maxTables) (hfor : t.IsFor q) (hlinked : t.IsLinked)
    (hexecute : ∀ order world, ¬(execute order world).1 < 0) (limits : Limits) (source : γ)
    (world : σ) : Run.Answers q execute limits [] ⟨t, source, true, world⟩
      (t.sample limits execute source world) := by
  obtain ⟨root, hroot, hpath⟩ := hlinked.root
  have hnil : root.path.toList = [] := by rw [hpath]
  have hat : Run.IsAt q limits ⟨t, source, true, world⟩ 0 root :=
    ⟨hfor, hlinked, hroot, hnil ▸ Limits.allows_nil⟩
  have hanswers := Run.sampleNode_answers hle hexecute (q.nrTables + 1) hat
    (by rw [hpath, Array.size_empty, Nat.zero_add])
  rw [hnil] at hanswers
  unfold sample
  rw [hfor.query_eq]
  exact hanswers

/-- Executes orders and lists them. -/
def Execute.listing (execute : Execute σ) : Execute (σ × List JoinOrder) :=
  fun order (world, listed) =>
    ((execute order world).1, (execute order world).2, listed ++ [order])

/-- **An admissible order is found if there is one.**  If executed orders are never worth less than
nothing, an episode on any tree that episodes can build executes exactly one order, an admissible
one, and answers its reward.  If no order is admissible, it executes none, answers nothing, and
leaves all tries and rewards alone. -/
theorem sample_admissible {config : Config} (hle : q.nrTables ≤ maxTables)
    (ht : Reachable q config t) (hexecute : ∀ order world, ¬(execute order world).1 < 0)
    (limits : Limits) (source : γ) (world : σ) :
    let result := t.sample limits execute.listing source (world, [])
    ((∃ order : JoinOrder, order.IsAdmissible limits q.nrTables) →
      ∃ order : JoinOrder, order.IsAdmissible limits q.nrTables ∧
        result.1 = some (execute order world).1 ∧
          result.2.world = ((execute order world).2, [order])) ∧
    ((¬∃ order : JoinOrder, order.IsAdmissible limits q.nrTables) →
      result.1 = none ∧ result.2.world = (world, []) ∧ t.KeepsStats result.2.tree) := by
  intro result
  obtain ⟨hfor, hlinked⟩ := ht.isLinked hle
  have hlisting (order : JoinOrder) (world : σ × List JoinOrder) :
      ¬(execute.listing order world).1 < 0 := hexecute order world.1
  have hanswers := sample_answers hle hfor hlinked hlisting limits source (world, [])
  rw [← Limits.canComplete_nil_iff]
  -- Either the empty prefix can be completed and the sample finds an order, or nothing happens.
  rcases hanswers with ⟨hcan, hfinds⟩ | ⟨hcannot, hfails⟩
  · exact ⟨fun _ => hfinds, fun hcannot => absurd hcan hcannot⟩
  · exact ⟨fun hcan => absurd hcan hcannot, fun _ => ⟨hfails.answer, hfails.world, hfails.stats⟩⟩

/-- A worker that has to join table 1 before table 0. -/
def Limits.sample : Limits := ⟨0, [⟨1, 0⟩], ∅⟩

theorem isAdmissible_sample : JoinOrder.IsAdmissible ⟨#[1, 0]⟩ Limits.sample 2 where
  isPermutation := by decide
  allows := by
    refine ⟨fun first _ => TableSet.contains_empty first, ?_⟩
    decide

theorem sample_admissible_sample : Reachable .sample {} (start .sample {}) ∧
    (∃ order : JoinOrder, order.IsAdmissible Limits.sample 2) ∧
      ∃ order : JoinOrder, order.IsAdmissible Limits.sample 2 ∧
        ((start .sample {}).sample Limits.sample
          (Execute.listing fun _ (count : Nat) => (1, count + 1)) (⟨0⟩ : SplitMix)
            (0, [])).2.world = (1, [order]) := by
  have hexecute : ∀ (order : JoinOrder) (count : Nat),
      ¬((fun _ count => (1, count + 1) : Execute Nat) order count).1 < 0 :=
    fun _ _ => (by decide : ¬(1 : Float) < 0)
  have hle : Query.sample.nrTables ≤ maxTables := by decide
  have hstart : Reachable .sample {} (start .sample {}) := .start
  obtain ⟨order, horder, -, hworld⟩ :=
    (sample_admissible hle hstart hexecute Limits.sample (⟨0⟩ : SplitMix) 0).1
      ⟨_, isAdmissible_sample⟩
  exact ⟨hstart, ⟨_, isAdmissible_sample⟩, order, horder, hworld⟩

end OrderTree

end AdaptiveJoin
