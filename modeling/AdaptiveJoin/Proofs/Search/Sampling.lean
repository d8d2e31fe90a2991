import AdaptiveJoin.Proofs.Search.Nodes

/-!
# Sampled orders

Every order that an episode executes lists all tables, whatever is drawn and whatever the tree has
learned.  So what the execution of such orders keeps is kept by an episode
(`OrderTree.sample_keeps`).
-/

namespace AdaptiveJoin

namespace OrderTree

/-! ### Selection -/

section Selection

variable {γ : Type} [RandomSource γ] {t : OrderTree} {limits : Limits} {excluded : TableSet}
  {n : OrderNode} {g : γ} {action : Nat}

theorem lt_of_mem_candidates (h : action ∈ candidates limits excluded n) :
    action < n.actions.size := by
  have hadmissible : ∀ a ∈ (Array.range n.actions.size).filter (isAdmissible limits excluded n),
      a < n.actions.size := by
    intro a ha
    exact Array.mem_range.1 (Array.mem_filter.1 ha).1
  unfold candidates at h
  dsimp only at h
  split at h
  · exact hadmissible action h
  · exact hadmissible action (Array.mem_filter.1 h).1

theorem mem_of_mem_rotate {a : Array Nat} {offset x : Nat} (h : x ∈ rotate a offset) : x ∈ a := by
  obtain ⟨k, hk, rfl⟩ := List.mem_map.1 h
  have hpos : 0 < a.size := by
    have := List.mem_range.1 hk
    omega
  have hlt := Nat.mod_lt (k + offset) hpos
  rw [Array.getElem?_eq_getElem hlt, Option.getD_some]
  exact Array.getElem_mem hlt

/-- The best action is one of the actions, or the best one so far. -/
theorem mem_of_bestAction? {score : Nat → Float} {actions : List Nat} {best : Option Nat}
    {bestScore : Float} (h : bestAction? n score actions best bestScore = some action) :
    action ∈ actions ∨ best = some action := by
  induction actions generalizing best bestScore with
  | nil => exact Or.inr h
  | cons first rest ih =>
    unfold bestAction? at h
    split at h
    · rw [← Option.some.inj h]
      exact Or.inl List.mem_cons_self
    · dsimp only at h
      split at h
      · rcases ih h with hmem | heq
        · exact Or.inl (List.mem_cons_of_mem _ hmem)
        · rw [← Option.some.inj heq]
          exact Or.inl List.mem_cons_self
      · exact (ih h).imp_left (List.mem_cons_of_mem _)

theorem mem_of_bestMean? {actions : Array Nat} (h : bestMean? n actions.toList = some action) :
    action ∈ actions := by
  rcases mem_of_bestAction? h with hmem | hnone
  · exact Array.mem_toList_iff.1 hmem
  · exact absurd hnone (by simp)

/-- The policy selects a candidate. -/
theorem mem_of_selectByPolicy {actions : Array Nat}
    (h : (t.selectByPolicy n actions g).1 = some action) : action ∈ actions := by
  unfold selectByPolicy at h
  split at h
  · rcases mem_of_bestAction? h with hmem | hnone
    · exact Array.mem_toList_iff.1 hmem
    · exact absurd hnone (by simp)
  · exact mem_of_bestMean? h
  · exact RandomSource.mem_of_choose h
  · dsimp only at h
    split at h
    · exact RandomSource.mem_of_choose h
    · exact mem_of_bestMean? h

/-- **A selected action is a candidate.** -/
theorem mem_of_select? (h : (t.select? limits excluded n g).1 = some action) :
    action ∈ candidates limits excluded n := by
  unfold select? at h
  dsimp only at h
  split at h
  · exact absurd h (by simp)
  · rename_i first hfirst
    split at h
    · rename_i a ha
      rw [← Option.some.inj h]
      -- An action that nobody has tried.
      exact mem_of_mem_rotate (List.mem_of_find?_eq_some ha)
    · split at h
      · rename_i a ha
        rw [← Option.some.inj h]
        -- An action that the worker has not tried.
        exact mem_of_mem_rotate (List.mem_of_find?_eq_some ha)
      · dsimp only at h
        -- The choice of the policy, or else the first candidate.
        cases hchoice : (t.selectByPolicy n (candidates limits excluded n) g).1 with
        | none =>
          rw [hchoice, Option.none_or] at h
          rw [← Option.some.inj h]
          exact Array.mem_of_getElem? hfirst
        | some a =>
          rw [hchoice, Option.some_or] at h
          rw [← Option.some.inj h]
          exact mem_of_selectByPolicy hchoice

end Selection

/-! ### Random completion -/

/-- The next table is a remaining one. -/
theorem lt_of_nextTable? {t : OrderTree} {limits : Limits} {remaining : Array Nat}
    {joined : TableSet} {i : Nat} (h : t.nextTable? limits remaining joined = some i) :
    i < remaining.size := by
  unfold nextTable? at h
  rcases Option.or_eq_some_iff.1 h with h | ⟨-, h⟩
  · exact (Array.findIdx?_eq_some_iff_findIdx_eq.1 h).1
  · exact (Array.findIdx?_eq_some_iff_findIdx_eq.1 h).1

/-- A completed order lists the tables it starts with and the remaining ones. -/
theorem perm_of_complete? {t : OrderTree} {limits : Limits} {rounds : Nat} {remaining : Array Nat}
    {joined : TableSet} {start order : Array Nat} (hrounds : rounds = remaining.size)
    (h : t.complete? limits rounds remaining joined start = some order) :
    order.Perm (start ++ remaining) := by
  induction rounds generalizing remaining joined start with
  | zero =>
    obtain rfl := Option.some.inj h
    rw [Array.size_eq_zero_iff.1 hrounds.symm, Array.append_empty]
  | succ rounds ih =>
    unfold complete? at h
    split at h
    · exact absurd h (by simp)
    · rename_i i hi
      have hlt := lt_of_nextTable? hi
      have hremoved := swapRemove_perm remaining hlt
      dsimp only at h
      rw [Array.getElem?_eq_getElem hlt, Option.getD_some] at h
      have hsize := hremoved.size_eq
      rw [Array.size_push] at hsize
      -- The table drawn moves from the remaining ones to the order.
      refine (ih (by omega) h).trans (.trans ?_ (.append (.refl start) hremoved))
      rw [Array.perm_iff_toList_perm]
      simp only [Array.toList_append, Array.toList_push, List.append_assoc]
      exact List.perm_append_comm.append_left start.toList

/-! ### Episodes -/

/-- Executing permutations of all tables keeps a property of states. -/
def Execute.Keeps {σ : Type} (execute : Execute σ) (n : Nat) (W : σ → Prop) : Prop :=
  ∀ order world, order.IsPermutation n → W world → W (execute order world).2

namespace Run

variable {γ σ : Type} [RandomSource γ]

/-- What every step of an episode keeps: a draw, the execution of a permutation of all tables, a
node added behind an action while one may be added, and a recorded reward. -/
structure Invariant (q : Query) (run : Execute σ) (I : Run γ σ → Prop) : Prop where
  isFor : ∀ {r}, I r → r.tree.IsFor q
  draw : ∀ {r}, I r → ∀ source, I { r with source := source }
  execute : ∀ {r}, I r → ∀ {order}, JoinOrder.IsPermutation ⟨order⟩ q.nrTables →
    I (r.execute run order).2
  expand : ∀ {r}, I r → r.canExpand = true → ∀ {id action},
    (∀ n, r.tree.node? id = some n → action < n.actions.size) →
      I { r with tree := r.tree.expand id action, canExpand := false }
  record : ∀ {r}, I r → ∀ id worker action reward,
    I { r with tree := r.tree.record id worker action reward }

namespace Invariant

variable {r : Run γ σ} {q : Query} {run : Execute σ} {I : Run γ σ → Prop} {limits : Limits}
  {descend : Nat → Run γ σ → Option Float × Run γ σ}
  (hI : Invariant q run I) (hle : q.nrTables ≤ maxTables)

include hI

omit [RandomSource γ] in
theorem expanded (hr : I r) {id : Nat} {n : OrderNode}
    (hn : ∀ n', r.tree.node? id = some n' → n' = n) {action : Nat}
    (haction : action < n.actions.size) : I (r.expand id n action) := by
  unfold Run.expand
  split
  · rename_i hfree
    refine hI.expand hr (Bool.and_eq_true_iff.1 hfree).2 fun n' hn' => ?_
    rwa [hn n' hn']
  · exact hr

include hle

/-- **A random completion executes a permutation of all tables.** -/
theorem playout (hr : I r) {n : OrderNode} (hn : n.IsFor q) {first : Nat}
    (hfirst : first ∈ n.actions) : I (r.playout run limits n first).2 := by
  unfold Run.playout
  have hshuffle := RandomSource.shuffle_perm (n.actions.filter (· != first)) r.source
  generalize RandomSource.shuffle (n.actions.filter (· != first)) r.source = shuffled at hshuffle ⊢
  obtain ⟨remaining, source⟩ := shuffled
  dsimp only at hshuffle ⊢
  split
  · exact hI.draw hr source
  · rename_i order horder
    apply hI.execute (hI.draw hr source)
    have hperm := (perm_of_complete? rfl horder).trans (.append (.refl _) hshuffle)
    exact (Array.perm_iff_toList_perm.1 hperm).trans (hn.perm_of_mem hle hfirst)

theorem follow (hdescend : ∀ id r, I r → I (descend id r).2) (hr : I r) {id : Nat}
    {n : OrderNode} (hn : n.IsFor q) (hnode : ∀ n', r.tree.node? id = some n' → n' = n)
    {action : Nat} (haction : action < n.actions.size) :
    I (r.follow run descend limits id n action).2 := by
  have hexpanded := hI.expanded hr hnode haction
  unfold Run.follow
  dsimp only
  split
  · exact hdescend _ _ hexpanded
  · exact hI.playout hle hexpanded hn (OrderNode.tableOf_mem haction)

theorem attempt (hdescend : ∀ id r, I r → I (descend id r).2) (hr : I r) {id : Nat}
    {n : OrderNode} (hn : n.IsFor q) (attempts : Nat) (excluded : TableSet) :
    I (r.attempt run descend limits id n attempts excluded).2 := by
  induction attempts generalizing r n excluded with
  | zero => exact hr
  | succ attempts ih =>
    unfold Run.attempt
    have hn' : ((r.tree.node? id).getD n).IsFor q := by
      cases hnode : r.tree.node? id with
      | none => exact hn
      | some n' => exact (hI.isFor hr).node id n' hnode
    have hnode : ∀ n', r.tree.node? id = some n' → n' = (r.tree.node? id).getD n := by
      intro n' hn'
      rw [hn', Option.getD_some]
    generalize (r.tree.node? id).getD n = n at hn' hnode ⊢
    dsimp only
    split
    · exact hI.draw hr _
    · rename_i action source hselect
      have haction : action < n.actions.size :=
        lt_of_mem_candidates (mem_of_select? (congrArg Prod.fst hselect))
      have hfollowed : I (({ r with source := source } : Run γ σ).follow run descend limits id n
          action).2 :=
        hI.follow hle hdescend (hI.draw hr source) hn' hnode haction
      generalize Run.follow run descend limits id n action { r with source := source } = result
        at hfollowed ⊢
      split
      · -- Nothing has been executed behind the action, so it is excluded and another one tried.
        exact ih hfollowed hn' _
      · split
        · exact ih hfollowed hn' _
        · exact hI.record hfollowed _ _ _ _

/-- **An episode keeps what its steps keep.** -/
theorem sampleNode (hr : I r) (limits : Limits) (levels id : Nat) :
    I (Run.sampleNode run limits levels id r).2 := by
  induction levels generalizing r id with
  | zero => exact hr
  | succ levels ih =>
    unfold Run.sampleNode
    split
    · exact hr
    · rename_i n hnode
      have hn := (hI.isFor hr).node id n hnode
      split
      · rename_i hleaf
        exact hI.execute hr (hn.isPermutation_of_isLeaf hle hleaf)
      · exact hI.attempt hle (fun id _ hr => ih hr id) hr hn _ _

/-- So does a whole episode. -/
theorem sample {t : OrderTree} (limits : Limits) (source : γ) (world : σ)
    (ht : I ⟨t, source, true, world⟩) : I (t.sample limits run source world).2 :=
  hI.sampleNode hle ht limits _ _

end Invariant

/-- A tree for the query, and a property of the state. -/
structure Keeps (r : Run γ σ) (q : Query) (W : σ → Prop) : Prop where
  tree : r.tree.IsFor q
  world : W r.world

omit [RandomSource γ] in
theorem Keeps.invariant {q : Query} {W : σ → Prop} {run : Execute σ} (hle : q.nrTables ≤ maxTables)
    (hrun : run.Keeps q.nrTables W) : Invariant q run fun r : Run γ σ => r.Keeps q W where
  isFor hr := hr.tree
  draw hr _ := ⟨hr.tree, hr.world⟩
  execute hr _ horder := ⟨hr.tree, hrun _ _ horder hr.world⟩
  expand hr _ _ _ haction := ⟨hr.tree.expand hle haction, hr.world⟩
  record hr _ _ _ _ := ⟨hr.tree.record _ _ _ _, hr.world⟩

end Run

/-- **An episode keeps what the execution of permutations keeps**, and its tree stays one for the
query. -/
theorem sample_keeps {γ σ : Type} [RandomSource γ] {t : OrderTree} {q : Query} {W : σ → Prop}
    {run : Execute σ} (hle : q.nrTables ≤ maxTables) (hrun : run.Keeps q.nrTables W)
    (ht : t.IsFor q) (limits : Limits) (source : γ) {world : σ} (hworld : W world) :
    (t.sample limits run source world).2.Keeps q W :=
  (Run.Keeps.invariant hle hrun).sample hle limits source world ⟨ht, hworld⟩

end OrderTree

end AdaptiveJoin
