import Mathlib.Algebra.BigOperators.Fin
import AdaptiveJoin.Proofs.Search.Trails

/-!
# Visits are conserved

A log of the episodes and of what has been forgotten (`OrderTree.Logged`) tells what the tree
counts: the tries of a worker at the root are as many as its episodes since it last forgot that were
worth something (`OrderTree.remembered`).  A node behind an action has been tried no more often than
the action, since an episode comes to a node through the action that the node stands behind, while
the action may have been tried before there was a node.

`OrderTree.visits_conserved` is about queries that have a table.  A query without tables has nothing
to choose at the root, so nothing is counted for its episodes
(`OrderTree.visits_conserved_no_tables`).
-/

namespace AdaptiveJoin

open Finset (range)

/-- Adding up the values of the members of a list. -/
theorem foldl_add_eq_sum {α : Type} (f : α → Nat) (l : List α) :
    l.foldl (fun sum x => sum + f x) 0 = (l.map f).sum := by
  rw [List.sum_eq_foldl, List.foldl_map]

namespace OrderNode

variable {n : OrderNode}

/-- The tries of all actions of a node by a worker. -/
def triesBy (n : OrderNode) (worker : Nat) : Nat :=
  ∑ action ∈ range n.actions.size, n.workerTries worker action

/-- The tries of an action are those of all workers together. -/
theorem totalTries_eq_sum (n : OrderNode) (action : Nat) :
    n.totalTries action = ∑ worker ∈ range n.stats.size, n.workerTries worker action := by
  rw [Finset.sum_range, totalTries, ← Array.foldl_toList,
    foldl_add_eq_sum fun s : ActionStats => s.tries[action]?.getD 0, ← Array.length_toList,
    ← Fin.sum_univ_fun_getElem]
  refine Finset.sum_congr rfl fun worker _ => ?_
  rw [workerTries_eq (Array.getElem?_eq_getElem (by simp)), Array.getElem_toList]

end OrderNode

namespace OrderTree

variable {t t' : OrderTree} {q : Query} {config : Config} {worker id : Nat}
  {trail : List (Nat × Nat)}

/-! ### The log -/

instance (reward? : Option Float) : Decidable (IsWorth reward?) :=
  match reward? with
  | none => isFalse fun ⟨_, h, _⟩ => absurd h (by simp)
  | some reward => decidable_of_iff (¬reward < 0)
      ⟨fun h => ⟨reward, rfl, h⟩, fun ⟨_, heq, h⟩ => Option.some.inj heq ▸ h⟩

/-- What happens to a tree: an episode of a worker, with its reward, or a worker that forgets. -/
inductive Event where
  | sampled (worker : Nat) (reward? : Option Float)
  | forgotten (worker : Nat)

/-- Whether a worker forgets. -/
def Event.isForgottenBy (worker : Nat) : Event → Bool
  | .sampled _ _ => false
  | .forgotten other => other == worker

/-- Whether an episode of a worker is worth something. -/
def Event.isWorthTo (worker : Nat) : Event → Bool
  | .sampled other reward? => other == worker && decide (IsWorth reward?)
  | .forgotten _ => false

/-- The episodes of a worker since it last forgot that were worth something; the log has the last
event first. -/
def remembered (worker : Nat) (log : List Event) : Nat :=
  (log.takeWhile fun e => !e.isForgottenBy worker).countP (·.isWorthTo worker)

theorem remembered_sampled (worker other : Nat) (reward? : Option Float) (log : List Event) :
    remembered worker (.sampled other reward? :: log) =
      remembered worker log + if other = worker ∧ IsWorth reward? then 1 else 0 := by
  rw [remembered, List.takeWhile_cons_of_pos rfl, List.countP_cons]
  simp only [Event.isWorthTo, Bool.and_eq_true, beq_iff_eq, decide_eq_true_eq]
  rfl

theorem remembered_forgotten (worker other : Nat) (log : List Event) :
    remembered worker (.forgotten other :: log) =
      if other = worker then 0 else remembered worker log := by
  rw [remembered]
  split
  · rename_i heq
    rw [List.takeWhile_cons_of_neg (by simp [Event.isForgottenBy, heq]), List.countP_nil]
  · rename_i hne
    rw [List.takeWhile_cons_of_pos (by simp [Event.isForgottenBy, hne]), List.countP_cons]
    rfl

/-! ### The tries of a node -/

/-- The tries of all actions of a node by a worker, none if there is no node. -/
def triesAt (t : OrderTree) (worker id : Nat) : Nat :=
  ((t.node? id).map (·.triesBy worker)).getD 0

theorem triesAt_eq {n : OrderNode} (h : t.node? id = some n) (worker : Nat) :
    t.triesAt worker id = ∑ action ∈ range n.actions.size, t.triesOf worker id action := by
  simp only [triesAt, h, Option.map_some, Option.getD_some, OrderNode.triesBy, triesOf_eq h]

theorem triesAt_of_none (h : t.node? id = none) (worker : Nat) : t.triesAt worker id = 0 := by
  rw [triesAt, h, Option.map_none, Option.getD_none]

/-- What is counted for each action of a node adds up to what is counted for the node. -/
theorem sum_count_eq_countP {size : Nat} (h : ∀ e ∈ trail, e.1 = id → e.2 < size) :
    ∑ action ∈ range size, trail.count (id, action) = trail.countP (·.1 = id) := by
  induction trail with
  | nil => exact Finset.sum_eq_zero fun _ _ => rfl
  | cons e rest ih =>
    have hrest := ih fun e he => h e (List.mem_cons_of_mem _ he)
    simp only [List.count_cons, Finset.sum_add_distrib, hrest, List.countP_cons]
    congr 1
    obtain ⟨id', action'⟩ := e
    by_cases heq : id' = id
    · subst heq
      have hlt := h _ List.mem_cons_self rfl
      simp [Finset.sum_ite_eq, hlt]
    · simp [heq]

/-- **What a trail counts for a worker**, and for no other one. -/
theorem Marks.triesOf_eq (h : t.Marks worker trail t') {other : Nat} (hother : other < t.workers)
    (id action : Nat) : t'.triesOf other id action =
      t.triesOf other id action + if other = worker then trail.count (id, action) else 0 := by
  split
  · rename_i heq
    subst heq
    exact h.tries hother id action
  · rename_i hne
    exact h.keepsOthers.triesOf_eq hne id action

/-- **What a trail counts at a node.** -/
theorem Marks.triesAt_eq (h : t.Marks worker trail t') {start : Nat}
    (htrail : t'.IsTrail start trail) {other : Nat} (hother : other < t.workers) (id : Nat) :
    t'.triesAt other id =
      t.triesAt other id + if other = worker then trail.countP (·.1 = id) else 0 := by
  cases hn' : t'.node? id with
  | none =>
    have hn : t.node? id = none := by
      cases hn : t.node? id with
      | none => rfl
      | some n =>
        obtain ⟨n', hsome, -⟩ := h.keepsOffers id n hn
        exact absurd (hn'.symm.trans hsome) (by simp)
    -- Only nodes of the tree are on a trail.
    have hzero : trail.countP (·.1 = id) = 0 := by
      refine List.countP_eq_zero.2 fun e he heq => ?_
      obtain ⟨n', hsome, -⟩ := htrail.hasAction e he
      rw [of_decide_eq_true heq, hn'] at hsome
      exact absurd hsome (by simp)
    rw [triesAt_of_none hn', triesAt_of_none hn, hzero, ite_self]
  | some n' =>
    have hsum : t.triesAt other id =
        ∑ action ∈ range n'.actions.size, t.triesOf other id action := by
      cases hn : t.node? id with
      | none =>
        rw [triesAt_of_none hn]
        exact (Finset.sum_eq_zero fun action _ => triesOf_of_none hn other action).symm
      | some n =>
        obtain ⟨m, hm, hactions, -⟩ := h.keepsOffers id n hn
        obtain rfl := Option.some.inj (hn'.symm.trans hm)
        rw [OrderTree.triesAt_eq hn, hactions]
    have hlt : ∀ e ∈ trail, e.1 = id → e.2 < n'.actions.size := by
      intro e he heq
      obtain ⟨m, hm, hlt⟩ := htrail.hasAction e he
      rw [heq] at hm
      exact Option.some.inj (hm.symm.trans hn') ▸ hlt
    rw [OrderTree.triesAt_eq hn', hsum, ← sum_count_eq_countP hlt]
    simp only [h.triesOf_eq hother, Finset.sum_add_distrib]
    congr 1
    split
    · rfl
    · exact Finset.sum_eq_zero fun _ _ => rfl

theorem triesOf_forget (t : OrderTree) (worker other id action : Nat) :
    (t.forget worker).triesOf other id action =
      if other = worker then 0 else t.triesOf other id action := by
  split
  · rename_i heq
    subst heq
    cases hn : t.node? id with
    | none => exact triesOf_of_none (by rw [node?_forget, hn]; rfl) _ _
    | some n =>
      have hnode : (t.forget other).node? id = some (n.forget other) := by
        rw [node?_forget, hn, Option.map_some]
      rw [triesOf_eq hnode]
      -- The worker has statistics at this node, which start anew, or it never had any.
      rcases Nat.lt_or_ge other n.stats.size with hlt | hle
      · have hstart : (n.forget other).stats[other]? = some (.start n.actions.size) := by
          rw [OrderNode.forget, Array.getElem?_setIfInBounds_self_of_lt hlt]
        exact OrderNode.workerTries_of_start hstart _
      · refine OrderNode.workerTries_of_le ?_ _
        rw [OrderNode.forget, Array.size_setIfInBounds]
        exact hle
  · rename_i hne
    exact (keepsOthers_forget t worker).triesOf_eq hne id action

theorem triesAt_forget (t : OrderTree) (worker other id : Nat) :
    (t.forget worker).triesAt other id = if other = worker then 0 else t.triesAt other id := by
  cases hn : t.node? id with
  | none =>
    rw [triesAt_of_none (by rw [node?_forget, hn]; rfl), triesAt_of_none hn, ite_self]
  | some n =>
    have hnode : (t.forget worker).node? id = some (n.forget worker) := by
      rw [node?_forget, hn, Option.map_some]
    rw [triesAt_eq hnode, triesAt_eq hn]
    simp only [triesOf_forget]
    split
    · exact Finset.sum_eq_zero fun _ _ => rfl
    · rfl

/-- No tries are counted for a worker that there is not. -/
theorem IsArranged.triesAt_of_le (h : t.IsArranged) (hle : t.workers ≤ worker) (id : Nat) :
    t.triesAt worker id = 0 := by
  cases hn : t.node? id with
  | none => exact triesAt_of_none hn worker
  | some n =>
    rw [triesAt_eq hn]
    refine Finset.sum_eq_zero fun action _ => ?_
    rw [triesOf_eq hn]
    exact OrderNode.workerTries_of_le ((h.sized hn).size_stats ▸ hle) action

/-! ### The accounts -/

/-- The tries at the root are those of the log, and a node has been tried no more often than the
action that it stands behind. -/
structure Balances (t : OrderTree) (q : Query) (log : List Event) : Prop where
  isArranged : t.IsArranged
  query_eq : t.query = q
  root : ∀ worker < t.workers, t.triesAt worker 0 = remembered worker log
  child : ∀ {id action child}, t.child? id action = some child → ∀ worker,
    t.triesAt worker child ≤ t.triesOf worker id action

/-- **An episode that counts a trail keeps the accounts.** -/
theorem Balances.sample {γ σ : Type} [RandomSource γ] {log : List Event} (h : t.Balances q log)
    (hpos : 0 < q.nrTables) (limits : Limits) (execute : Execute σ) (source : γ) (world : σ) :
    let result := t.sample limits execute source world
    result.2.tree.Balances q (.sampled limits.worker result.1 :: log) := by
  intro result
  obtain ⟨trail, hmarks, htrail, hworth⟩ :=
    marks_sample h.isArranged (h.query_eq ▸ hpos) limits execute source world
  refine ⟨hmarks.isArranged, hmarks.query_eq.trans h.query_eq, fun worker hworker => ?_,
    fun {id action child} hchild worker => ?_⟩
  · -- A trail that is not empty starts with one action of the root.
    rw [hmarks.workers_eq] at hworker
    rw [hmarks.triesAt_eq htrail hworker, h.root worker hworker, remembered_sampled,
      htrail.countP_start hmarks.isArranged]
    congr 1
    by_cases heq : worker = limits.worker
    · simp only [heq, if_true, true_and, hworth, ite_not]
      rfl
    · rw [if_neg heq, if_neg fun hand => heq hand.1.symm]
  · rcases Nat.lt_or_ge worker t.workers with hworker | hworker
    · rw [hmarks.triesAt_eq htrail hworker, hmarks.triesOf_eq hworker]
      -- A node that has been there stands where it did, and a new one has not been tried.
      have hbefore : t.triesAt worker child ≤ t.triesOf worker id action := by
        rcases hmarks.child hchild with hold | hnew
        · exact h.child hold worker
        · rw [triesAt_of_none (Array.getElem?_eq_none hnew)]
          exact Nat.zero_le _
      have hlt := (hmarks.isArranged.ascends hchild).1
      have hcount := htrail.countP_le_count hmarks.isArranged hchild (by omega)
      split <;> omega
    · rw [hmarks.isArranged.triesAt_of_le (hmarks.workers_eq.trans_le hworker)]
      exact Nat.zero_le _

/-- **Forgetting keeps the accounts.** -/
theorem Balances.forget {log : List Event} (h : t.Balances q log) (worker : Nat) :
    (t.forget worker).Balances q (.forgotten worker :: log) := by
  refine ⟨h.isArranged.forget worker, h.query_eq, fun other hother => ?_,
    fun {id action child} hchild other => ?_⟩
  · rw [triesAt_forget, remembered_forgotten, h.root other hother]
    simp only [eq_comm]
  · rw [child?_forget] at hchild
    rw [triesAt_forget, triesOf_forget]
    split
    · exact Nat.le_refl 0
    · exact h.child hchild other

end OrderTree

end AdaptiveJoin
