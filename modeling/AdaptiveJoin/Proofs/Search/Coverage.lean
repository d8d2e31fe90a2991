import AdaptiveJoin.Proofs.Residue
import AdaptiveJoin.Proofs.Search.Visits

/-!
# Every preferred action once before any action twice

An episode without rules whose executed orders are never worth less than nothing succeeds with the
first action that it selects at each node (`OrderTree.Run.IsAt.attempt_records`).  As long as there
is a preferred action that the worker has not tried, the action selected is one that it has not
tried (`OrderTree.workerTries_of_select?`), whatever the other workers have done.  So while a worker
has not tried all preferred actions of a node, it has tried none of its actions twice
(`OrderTree.untried_first`).
-/

namespace AdaptiveJoin

namespace OrderNode

/-- While a worker has not tried all preferred actions of a node, it has tried no action twice. -/
def SpreadsTries (n : OrderNode) (worker : Nat) : Prop :=
  (∃ a < n.actions.size, n.recommended.contains (n.tableOf a) = true ∧ n.workerTries worker a = 0) →
    ∀ a, n.workerTries worker a ≤ 1

variable {n n' : OrderNode} {worker action : Nat}

/-- What others have done does not matter. -/
theorem SpreadsTries.congr (h : n.SpreadsTries worker) (hactions : n'.actions = n.actions)
    (hrecommended : n'.recommended = n.recommended)
    (htries : ∀ a, n'.workerTries worker a = n.workerTries worker a) : n'.SpreadsTries worker := by
  rintro ⟨a, hlt, hpreferred, hnone⟩ a'
  rw [tableOf, hactions] at hpreferred
  rw [hrecommended] at hpreferred
  rw [htries]
  exact h ⟨a, hactions ▸ hlt, hpreferred, htries a ▸ hnone⟩ a'

theorem spreadsTries_of_eq_zero (h : ∀ a, n.workerTries worker a = 0) : n.SpreadsTries worker :=
  fun _ a => (h a).trans_le (Nat.zero_le 1)

/-- A worker has no more tries of an action than all workers together. -/
theorem workerTries_of_totalTries (h : n.totalTries action = 0) (worker : Nat) :
    n.workerTries worker action = 0 := by
  rcases Nat.lt_or_ge worker n.stats.size with hlt | hle
  · rw [totalTries_eq_sum] at h
    exact Finset.sum_eq_zero_iff.1 h worker (Finset.mem_range.2 hlt)
  · exact workerTries_of_le hle action

end OrderNode

namespace OrderTree

/-- An episode has no rules to keep to, and rows left of every first table. -/
structure Limits.IsFree (limits : Limits) : Prop where
  rules : limits.rules = []
  exhaustedRoots : limits.exhaustedRoots = ∅

/-- Tries are spread at all nodes of a tree. -/
def SpreadsTries (t : OrderTree) : Prop :=
  ∀ id n, t.node? id = some n → ∀ worker, n.SpreadsTries worker

/-- The trees that free episodes can build if executed orders are never worth less than nothing. -/
inductive FreelyReachable (q : Query) (config : Config) : OrderTree → Prop where
  | start : FreelyReachable q config (.start q config)
  | sample {γ σ : Type} [RandomSource γ] {t : OrderTree} {limits : Limits} {execute : Execute σ}
      (h : FreelyReachable q config t) (hlimits : limits.IsFree)
      (hexecute : ∀ order world, ¬(execute order world).1 < 0) (source : γ) (world : σ) :
      FreelyReachable q config (t.sample limits execute source world).2.tree
  | forget {t : OrderTree} (h : FreelyReachable q config t) (worker : Nat) :
      FreelyReachable q config (t.forget worker)

variable {t : OrderTree} {q : Query} {limits : Limits} {n : OrderNode} {id action : Nat}

/-! ### Selection -/

/-- Without rules every choice is allowed. -/
theorem Limits.IsFree.allows (h : limits.IsFree) (tables : List Nat) : limits.Allows tables where
  root first _ := by rw [h.exhaustedRoots, TableSet.contains_empty]
  rules := by rw [h.rules, permitsAll_nil]

theorem Limits.IsFree.isAdmissible (h : limits.IsFree) (n : OrderNode) (action : Nat) :
    isAdmissible limits ∅ n action = true := by
  unfold OrderTree.isAdmissible
  dsimp only
  rw [h.rules, h.exhaustedRoots, TableSet.contains_empty, Bool.and_false]
  rfl

/-- A preferred action is a candidate of a free episode. -/
theorem Limits.IsFree.mem_candidates (h : limits.IsFree) (hlt : action < n.actions.size)
    (hpreferred : n.recommended.contains (n.tableOf action) = true) :
    action ∈ candidates limits ∅ n := by
  have hmem : action ∈ ((Array.range n.actions.size).filter
      (OrderTree.isAdmissible limits ∅ n)).filter fun a => n.recommended.contains (n.tableOf a) :=
    Array.mem_filter.2 ⟨Array.mem_filter.2 ⟨Array.mem_range.2 hlt, h.isAdmissible n action⟩,
      hpreferred⟩
  unfold candidates
  dsimp only
  rw [if_neg]
  · exact hmem
  · rw [Array.isEmpty_iff]
    exact Array.ne_empty_of_mem hmem

/-- A rotated array has the same members. -/
theorem mem_rotate {a : Array Nat} {x : Nat} (h : x ∈ a) (offset : Nat) : x ∈ rotate a offset := by
  obtain ⟨i, hi, rfl⟩ := Array.getElem_of_mem h
  obtain ⟨k, hk, heq⟩ := exists_add_mod_eq hi offset
  refine List.mem_map.2 ⟨k, List.mem_range.2 hk, ?_⟩
  rw [Nat.add_comm k offset, heq, Array.getElem?_eq_getElem hi, Option.getD_some]

/-- **While there is a preferred action that the worker has not tried, a free episode selects an
action that it has not tried.** -/
theorem workerTries_of_select? {γ : Type} [RandomSource γ] (hfree : limits.IsFree) {g : γ}
    (h : (t.select? limits ∅ n g).1 = some action)
    (huntried : ∃ a < n.actions.size, n.recommended.contains (n.tableOf a) = true ∧
      n.workerTries limits.worker a = 0) : n.workerTries limits.worker action = 0 := by
  obtain ⟨a, hlt, hpreferred, hnone⟩ := huntried
  have hround : a ∈ rotate (candidates limits ∅ n) limits.worker :=
    mem_rotate (hfree.mem_candidates hlt hpreferred) _
  unfold select? at h
  dsimp only at h
  split at h
  · exact absurd h (by simp)
  · split at h
    · -- Nobody has tried the selected action.
      rename_i a' ha'
      rw [← Option.some.inj h]
      exact OrderNode.workerTries_of_totalTries (by simpa using List.find?_some ha') _
    · split at h
      · rename_i a' ha'
        rw [← Option.some.inj h]
        simpa using List.find?_some ha'
      · -- The worker has tried all actions, against what is known of one of them.
        rename_i hall
        exact absurd hnone (by simpa using List.find?_eq_none.1 hall a hround)

/-! ### Steps of an episode -/

/-- Tries stay spread where nothing is counted. -/
theorem SpreadsTries.expand (h : t.SpreadsTries) (id action : Nat) :
    (t.expand id action).SpreadsTries := by
  intro id' n' hn' worker
  have htries (a : Nat) : n'.workerTries worker a = t.triesOf worker id' a := by
    rw [← triesOf_eq hn', (keepsStats_expand t id action).triesOf_eq]
  cases hn : t.node? id' with
  | none =>
    exact OrderNode.spreadsTries_of_eq_zero fun a => (htries a).trans (triesOf_of_none hn _ _)
  | some n =>
    obtain ⟨m, hm, hactions, hrecommended⟩ := keepsOffers_expand t id action id' n hn
    obtain rfl := Option.some.inj (hn'.symm.trans hm)
    exact (h id' n hn worker).congr hactions hrecommended fun a => by rw [htries, triesOf_eq hn]

/-- **Recording an action that the worker has not tried keeps tries spread**, and so does recording
any action once all preferred ones have been tried. -/
theorem SpreadsTries.record (h : t.SpreadsTries) (ht : t.IsArranged) (hn : t.node? id = some n)
    (haction : action < n.actions.size) {worker : Nat}
    (huntried : (∃ a < n.actions.size, n.recommended.contains (n.tableOf a) = true ∧
      n.workerTries worker a = 0) → n.workerTries worker action = 0) (reward : Float) :
    (t.record id worker action reward).SpreadsTries := by
  intro id' n' hn' other
  rw [node?_record] at hn'
  obtain ⟨m, hm, rfl⟩ := Option.map_eq_some_iff.1 hn'
  split
  · rename_i hid
    subst hid
    obtain rfl := Option.some.inj (hn.symm.trans hm)
    have hsized := ht.sized hn
    by_cases hother : other = worker ∧ worker < t.workers
    · obtain ⟨rfl, hworker⟩ := hother
      have htries := hsized.workerTries_record hworker haction reward
      rintro ⟨a, hlt, hpreferred, hnone⟩ a'
      rw [htries] at hnone
      -- The action that is still untried has not been the selected one.
      have hbefore : n.workerTries other a = 0 := by omega
      have hselected := huntried ⟨a, hlt, hpreferred, hbefore⟩
      have hle := h id n hn other ⟨a, hlt, hpreferred, hbefore⟩ a'
      rw [htries]
      split
      · rename_i heq
        rw [← heq, hselected]
      · exact hle
    · refine (h id n hn other).congr rfl rfl fun a => OrderNode.workerTries_congr ?_ a
      show (n.stats.modify worker _)[other]? = n.stats[other]?
      rw [Array.getElem?_modify]
      split
      · rename_i heq
        rw [Array.getElem?_eq_none (by have := hsized.size_stats; omega)]
        rfl
      · rfl
  · exact h id' m hm other

theorem SpreadsTries.forget (h : t.SpreadsTries) (worker : Nat) :
    (t.forget worker).SpreadsTries := by
  intro id n' hn' other
  have htries (a : Nat) : n'.workerTries other a =
      if other = worker then 0 else t.triesOf other id a := by
    rw [← triesOf_eq hn', triesOf_forget]
  rw [node?_forget] at hn'
  obtain ⟨n, hn, rfl⟩ := Option.map_eq_some_iff.1 hn'
  by_cases heq : other = worker
  · exact OrderNode.spreadsTries_of_eq_zero fun a => (htries a).trans (if_pos heq)
  · exact (h id n hn other).congr rfl rfl fun a => by rw [htries, if_neg heq, triesOf_eq hn]

namespace Run

variable {γ σ : Type} [RandomSource γ] {r : Run γ σ} {run : Execute σ}

/-- The first attempt that is worth something records its action. -/
theorem attempt_eq_record {descend : Nat → Run γ σ → Option Float × Run γ σ}
    (hn : r.tree.node? id = some n) {excluded : TableSet} {source : γ}
    (hselect : r.tree.select? limits excluded n r.source = (some action, source))
    {reward : Float} {r' : Run γ σ}
    (hfollow : ({ r with source := source } : Run γ σ).follow run descend limits id n action =
      (some reward, r')) (hreward : ¬reward < 0) (attempts : Nat) :
    r.attempt run descend limits id n (attempts + 1) excluded =
      (some reward, { r' with tree := r'.tree.record id limits.worker action reward }) := by
  unfold attempt
  rw [hn, Option.getD_some]
  dsimp only
  rw [hselect]
  dsimp only
  rw [hfollow]
  dsimp only
  rw [if_neg hreward]

variable (hle : q.nrTables ≤ maxTables) (hrun : ∀ order world, ¬(run order world).1 < 0)

include hle

omit [RandomSource γ] in
/-- The tables of a node can be completed without rules. -/
theorem IsAt.canComplete (h : r.IsAt q limits id n) (hfree : limits.IsFree) :
    limits.CanComplete q.nrTables n.path.toList :=
  ⟨n.actions.toList, h.isFor_node.perm hle, hfree.allows _⟩

include hrun

/-- **At every node a free episode records the first action that it selects**, after it has gone on
behind this action. -/
theorem IsAt.attempt_records {levels : Nat} (h : r.IsAt q limits id n) (hfree : limits.IsFree)
    (hsize : n.path.size + levels = q.nrTables) (hleaf : n.isLeaf = false) (attempts : Nat) :
    ∃ action source reward r', r.tree.select? limits ∅ n r.source = (some action, source) ∧
      ({ r with source := source } : Run γ σ).follow run (sampleNode run limits levels) limits id n
        action = (some reward, r') ∧
      r.attempt run (sampleNode run limits levels) limits id n (attempts + 1) ∅ =
        (some reward, { r' with tree := r'.tree.record id limits.worker action reward }) := by
  obtain ⟨action, source, hselect, ⟨order, -, hreward, -⟩, -⟩ := h.first_attempt hle hrun hsize
    (fun _ _ _ hat hpath => sampleNode_answers hle hrun levels hat hpath)
    (h.canComplete hle hfree) hleaf attempts
  -- The first attempt is rewarded already, so no other one is made.
  generalize hfollow : ({ r with source := source } : Run γ σ).follow run
    (sampleNode run limits levels) limits id n action = result at hreward
  obtain ⟨reward?, r'⟩ := result
  obtain rfl : reward? = _ := hreward
  exact ⟨action, source, _, r', hselect, hfollow,
    attempt_eq_record h.node hselect hfollow (hrun order r.world) attempts⟩

omit hrun in
/-- Going on behind an action keeps tries spread if going on in nodes does. -/
theorem IsAt.follow_spreadsTries {descend : Nat → Run γ σ → Option Float × Run γ σ}
    (h : r.IsAt q limits id n) (hfree : limits.IsFree) (hr : r.tree.IsArranged)
    (hspreads : r.tree.SpreadsTries)
    (hdescend : ∀ id' (r' : Run γ σ) n', r'.IsAt q limits id' n' →
      n'.path.size = n.path.size + 1 → r'.tree.IsArranged → r'.tree.SpreadsTries →
        (descend id' r').2.tree.SpreadsTries)
    (haction : action < n.actions.size) :
    (r.follow run descend limits id n action).2.tree.SpreadsTries := by
  have hexpanded : (r.expand id n action).tree.SpreadsTries := by
    unfold Run.expand
    split
    · exact hspreads.expand id action
    · exact hspreads
  rcases h.follow_cases hle run descend haction (hfree.allows _) with
    ⟨child, c, heq, hat, hpath⟩ | heq <;> rw [heq]
  · -- The sample goes on below a child, or else completes the order without touching the tree.
    apply hdescend child _ c hat
    · rw [hpath, Array.size_push]
    · exact (marks_expand hr limits.worker id n action).isArranged
    · exact hexpanded
  · rw [tree_playout]
    exact hexpanded

/-- **Going on in a node keeps tries spread.** -/
theorem sampleNode_spreadsTries (levels : Nat) (h : r.IsAt q limits id n) (hfree : limits.IsFree)
    (hsize : n.path.size + levels = q.nrTables + 1) (hr : r.tree.IsArranged)
    (hspreads : r.tree.SpreadsTries) : (sampleNode run limits levels id r).2.tree.SpreadsTries := by
  induction levels generalizing r id n with
  | zero => exact hspreads
  | succ levels ih =>
    unfold sampleNode
    rw [h.node]
    dsimp only
    by_cases hleaf : n.isLeaf = true
    · rw [if_pos hleaf]
      exact hspreads
    rw [if_neg hleaf]
    have hlevels : n.path.size + levels = q.nrTables := by omega
    obtain ⟨action, source, reward, r', hselect, hfollow, hattempt⟩ := h.attempt_records hle hrun
      hfree hlevels (Bool.eq_false_iff.2 hleaf) n.actions.size
    have haction := lt_of_mem_candidates (mem_of_select? (congrArg Prod.fst hselect))
    have hdrawn : ({ r with source := source } : Run γ σ).IsAt q limits id n :=
      ⟨h.isFor, h.isLinked, h.node, h.allows⟩
    have hbehind : (({ r with source := source } : Run γ σ).follow run
        (sampleNode run limits levels) limits id n action).2.tree.SpreadsTries :=
      hdrawn.follow_spreadsTries hle hfree hr hspreads
        (fun id' r' n' hat hpath => ih hat (by omega)) haction
    have hmarks := follow_marks (r := { r with source := source })
      (sampleNode_marks run limits levels) hr run id n action
    rw [hfollow] at hbehind hmarks
    -- Behind the action nothing is counted for the node, so it stands as when it was selected.
    obtain ⟨m, hm, hactions, hrecommended, htries⟩ := hmarks.node?_eq hr h.node
    obtain ⟨rest, hmarks, -⟩ := hmarks
    rw [hattempt]
    refine hbehind.record hmarks.isArranged hm (hactions ▸ haction) ?_ reward
    rintro ⟨a, hlt, hpreferred, hnone⟩
    rw [htries] at hnone ⊢
    rw [OrderNode.tableOf, hactions, hrecommended] at hpreferred
    exact workerTries_of_select? hfree (congrArg Prod.fst hselect)
      ⟨a, hactions ▸ hlt, hpreferred, hnone⟩

end Run

/-! ### Trees of free episodes -/

variable {config : Config}

theorem FreelyReachable.reachable (h : FreelyReachable q config t) : Reachable q config t := by
  induction h with
  | start => exact .start
  | sample h hlimits hexecute source world ih => exact .sample _ _ source world ih
  | forget h worker ih => exact .forget worker ih

theorem Reachable.isArranged (h : Reachable q config t) : t.IsArranged := by
  induction h with
  | start => exact isArranged_start q config
  | sample limits execute source world h ih =>
    obtain ⟨trail, hmarks, -⟩ := Run.sampleNode_marks execute limits _ 0 ⟨_, source, true, world⟩ ih
    exact hmarks.isArranged
  | forget worker h ih => exact ih.forget worker

theorem spreadsTries_start (q : Query) (config : Config) : (start q config).SpreadsTries := by
  intro id n hn worker
  obtain rfl := Array.mem_singleton.1 (Array.mem_of_getElem? hn)
  exact OrderNode.spreadsTries_of_eq_zero fun action => workerTries_makeNode _ _ worker action

/-- **Untried first.**  In every tree that free episodes can build, whatever the policy, the draws
and the other workers: while a worker has not tried all preferred actions of a node since it last
forgot, it has tried none of its actions twice. -/
theorem untried_first (hle : q.nrTables ≤ maxTables) (h : FreelyReachable q config t) :
    ∀ id n, t.node? id = some n → ∀ worker,
      (∃ a < n.actions.size, n.recommended.contains (n.tableOf a) = true ∧
        n.workerTries worker a = 0) → ∀ a, n.workerTries worker a ≤ 1 := by
  induction h with
  | start => exact spreadsTries_start q config
  | forget h worker ih => exact SpreadsTries.forget ih worker
  | @sample γ σ _ t limits execute h hlimits hexecute source world ih =>
    obtain ⟨hfor, hlinked⟩ := h.reachable.isLinked hle
    obtain ⟨root, hroot, hpath⟩ := hlinked.root
    have hat : Run.IsAt q limits ⟨t, source, true, world⟩ 0 root :=
      ⟨hfor, hlinked, hroot, hlimits.allows _⟩
    have hsize : root.path.size + (t.query.nrTables + 1) = q.nrTables + 1 := by
      rw [hpath, hfor.query_eq, Array.size_empty, Nat.zero_add]
    exact Run.sampleNode_spreadsTries hle hexecute _ hat hlimits hsize h.reachable.isArranged ih

/-- The tree of the sample query after a free episode. -/
def freelySampled : OrderTree :=
  ((start .sample {}).sample ⟨0, [], ∅⟩ (fun _ count => (1, count + 1)) (⟨0⟩ : SplitMix) 0).2.tree

/-- The worker has tried table 0 first, and prefers table 1 as well. -/
theorem untried_first_sample : Query.sample.nrTables ≤ maxTables ∧
    FreelyReachable .sample {} freelySampled ∧ ∃ root, freelySampled.node? 0 = some root ∧
      root.recommended.contains (root.tableOf 1) = true ∧ root.workerTries 0 1 = 0 ∧
        ∀ a, root.workerTries 0 a ≤ 1 := by
  have hle : Query.sample.nrTables ≤ maxTables := by decide
  have hexecute (order : JoinOrder) (count : Nat) :
      ¬((fun _ count => (1, count + 1) : Execute Nat) order count).1 < 0 :=
    (by decide : ¬(1 : Float) < 0)
  have hreachable : FreelyReachable .sample {} freelySampled :=
    .sample .start ⟨rfl, rfl⟩ hexecute _ _
  have hroot : ((freelySampled.node? 0).map fun n =>
      (n.actions.size, n.recommended.contains (n.tableOf 1), n.workerTries 0 1)) =
        some (2, true, 0) := by decide +kernel
  obtain ⟨root, hnode, hroot⟩ := Option.map_eq_some_iff.1 hroot
  obtain ⟨hsize, hpreferred, hnone⟩ : root.actions.size = 2 ∧
      root.recommended.contains (root.tableOf 1) = true ∧ root.workerTries 0 1 = 0 := by
    simpa using hroot
  have huntried : ∃ a < root.actions.size, root.recommended.contains (root.tableOf a) = true ∧
      root.workerTries 0 a = 0 := ⟨1, by omega, hpreferred, hnone⟩
  exact ⟨hle, hreachable, root, hnode, hpreferred, hnone,
    untried_first hle hreachable 0 root hnode 0 huntried⟩

end OrderTree

end AdaptiveJoin
