import AdaptiveJoin.Proofs.Crew.Remaining
import AdaptiveJoin.Proofs.Search.Turns

/-!
# Every turn brings the search closer to its end

`Team.turnsLeft` bounds the number of turns that the searchers of a team can still take before they
have all stopped: every turn of a searcher that goes on lowers it, since it leaves the searcher's
worker less to do, uses up a delay, or stops the searcher.  `Team.IsLive` is the invariant behind
it: a searcher stops only if its worker has nothing to do any more (`Team.IsOver`).

* `Team.IsLive.of_turnsTo`: a turn keeps the invariant.
* `Team.IsLive.turnsLeft_lt`: a turn of a searcher that goes on lowers the bound.
-/

namespace AdaptiveJoin

/-- A planner drives a task: it suits the task, the tables of which fit into a table set, and every
episode has a step at least. -/
structure Planner.Drives (p : Planner) (task : Task) : Prop extends p.Suits task where
  nrTables_le : task.query.nrTables ≤ maxTables
  knowsEmptyTables : task.KnowsEmptyTables
  budget_pos : 0 < task.budget

/-- The number of turns that a searcher can still take. -/
def Searcher.turnsLeft {γ : Type} (s : Searcher γ) (q : Query) : Nat :=
  if s.stopped then 0 else 3 * s.worker.work q + s.delay + 1

namespace Team

variable {γ : Type}

/-- The number of turns that the searchers of a team can still take. -/
def turnsLeft (t : Team γ) : Nat := (t.searchers.toList.map (·.turnsLeft t.task.query)).sum

/-- A worker has nothing to do any more: the result is complete, or its shares of all tables are
finished. -/
def IsOver (t : Team γ) (number : Nat) : Prop :=
  t.shared.progress.isFinished = true ∨
    ∀ table < t.task.query.nrTables, t.shared.progress.isShareFinished table number = true

/-- The invariant of a team that comes to an end. -/
structure IsLive (t : Team γ) (p : Planner) (task : Task) (workers : Nat) : Prop where
  task_eq : t.task = task
  tree : t.tree.IsFor task.query
  isLinked : t.tree.IsLinked
  crew : t.crew.IsLive p task workers
  size : t.searchers.size = workers
  unlimited : t.config.maxEpisodes = none
  isPaced : ∀ (number : Nat) (s : Searcher γ), t.searchers[number]? = some s → s.IsPaced t.config
  isOver : ∀ (number : Nat) (s : Searcher γ), t.searchers[number]? = some s → s.stopped = true →
    t.IsOver number

variable {t t' : Team γ} {s s' : Searcher γ} {p : Planner} {task : Task} {workers number : Nat}

/-! ### Admissible orders -/

section Admissible

variable (hp : p.Drives task) (h : t.IsLive p task workers)

include hp h

theorem IsLive.contains_exhaustedRoots {table : Nat} (ht : table < task.query.nrTables)
    (worker : Nat) : (t.exhaustedRoots worker).contains table = true ↔
      t.shared.progress.isShareFinished table worker = true := by
  have hn : t.shared.progress.nrTables = task.query.nrTables := h.crew.shared.isFor.nrTables_eq
  unfold exhaustedRoots
  dsimp only
  rw [TableSet.contains_ofList_iff fun table' ht' => by
    have := List.mem_range.1 (List.mem_filter.1 ht').1
    have := hp.nrTables_le
    omega]
  simp only [List.mem_filter, List.mem_range, hn, ht, true_and]

/-- The share of the outermost table of an admissible order is not finished. -/
theorem IsLive.isShareFinished_of_admits {order : JoinOrder} (horder : t.Admits s order) :
    t.shared.progress.isShareFinished order.leftmost s.worker.number = false := by
  obtain ⟨hperm, hallows⟩ := horder
  rw [h.task_eq] at hperm
  have ht : order.leftmost < task.query.nrTables := hperm.tableAt_lt hp.nrTables_pos
  have hsize : 0 < order.size := hperm.size_eq.symm ▸ hp.nrTables_pos
  obtain ⟨rest, hrest⟩ := exists_take_eq_cons hsize hsize
  rw [List.take_of_length_le (JoinOrder.length_toList order).le] at hrest
  have hroot := hallows.root order.leftmost (by rw [hrest, List.head?_cons])
  rw [Bool.eq_false_iff, ne_eq] at hroot ⊢
  rwa [← h.contains_exhaustedRoots hp ht]

/-- **A worker without rules and without an admissible order has finished its shares of all
tables.** -/
theorem IsLive.isShareFinished_of_not_admits (hrules : s.rules = [])
    (hnone : ∀ order, ¬t.Admits s order) :
    ∀ table < task.query.nrTables,
      t.shared.progress.isShareFinished table s.worker.number = true := by
  intro table ht
  by_contra hopen
  -- Otherwise an order that starts with the table is admissible.
  refine hnone (.ofList (table :: (List.range task.query.nrTables).erase table)) ⟨?_, ?_, ?_⟩
  · rw [h.task_eq]
    exact (List.perm_cons_erase (List.mem_range.2 ht)).symm
  · intro first hfirst
    obtain rfl := Option.some.inj hfirst
    rwa [Bool.eq_false_iff, ne_eq, limits, h.contains_exhaustedRoots hp ht]
  · show permitsAll s.rules _ _ = true
    rw [hrules]
    exact permitsAll_nil _ _

/-- A join with an empty table is complete. -/
theorem IsLive.isFinished_of_hasEmptyTable (hempty : task.hasEmptyTable = true) :
    t.shared.progress.isFinished = true := by
  obtain ⟨table, ht, hzero⟩ := hp.knowsEmptyTables.1 hempty
  have hfor : t.shared.progress.IsFor task.query workers := h.crew.shared.isFor
  refine hfor.isFinished_of_shares ht fun share hs => ?_
  have ht' := hfor.nrTables_eq.symm ▸ ht
  have hs' := hfor.workers_eq.symm ▸ hs
  have hle := hfor.offset_le table ht' share hs'
  rw [hfor.isShareFinished_iff table ht' share hs']
  rw [hfor.cardinality_eq, hzero] at hle ⊢
  omega

end Admissible

/-! ### A turn -/

theorem IsLive.number_eq (h : t.IsLive p task workers) (hs : t.searchers[number]? = some s) :
    s.worker.number = number := h.crew.number number _ (getElem?_crew hs)

/-- A worker that has nothing to do does not get anything to do. -/
theorem IsOver.mono (hover : t.IsOver number) (htask : t'.task = t.task)
    (hnumber : number < workers) {q : Query} (hfor : t.shared.progress.IsFor q workers)
    (hfor' : t'.shared.progress.IsFor q workers)
    (hbefore : t.shared.progress.IsBefore t'.shared.progress workers) : t'.IsOver number := by
  refine hover.imp (hbefore.isFinished hfor hfor') fun hall table ht => ?_
  exact hbefore.isShareFinished table number hnumber (hall table (htask ▸ ht))

section Turn

variable (hp : p.Drives task) (h : t.IsLive p task workers) (hs : t.searchers[number]? = some s)
  (hturn : t.TurnsTo number s s' t')

include hp h hturn

/-- A turn keeps the invariant of the crew, and finishes shares only. -/
theorem IsLive.crew_turn : t'.crew.IsLive p task workers ∧
    t.shared.progress.IsBefore t'.shared.progress workers := by
  show t'.crew.IsLive p task workers ∧ t.crew.shared.progress.IsBefore t'.crew.shared.progress _
  have hsame (hcrew : t'.crew = t.crew) : t'.crew.IsLive p task workers ∧
      t.crew.shared.progress.IsBefore t'.crew.shared.progress workers := by
    rw [hcrew]
    exact ⟨h.crew, .refl _ _⟩
  cases hturn.step with
  | ends hfinished hstopped hcrew => exact hsame hcrew
  | executes hunfinished horder hstopped hcrew =>
    rw [hcrew, h.task_eq]
    exact h.crew.execute hp.toSuits number (h.task_eq ▸ horder.isPermutation)
  | drops hnone hstopped hcrew hdelay => exact hsame hcrew
  | givesUp hrules hnone hstopped hcrew => exact hsame hcrew

include hs

/-- **A turn of a searcher keeps the invariant.** -/
theorem IsLive.of_turnsTo : t'.IsLive p task workers := by
  obtain ⟨hcrew, hbefore⟩ := h.crew_turn hp hturn
  have hover {number : Nat} (hnumber : number < workers) (hover : t.IsOver number) :
      t'.IsOver number :=
    hover.mono hturn.task_eq hnumber h.crew.shared.isFor hcrew.shared.isFor hbefore
  have hlt : number < workers := h.size ▸ (Array.getElem?_eq_some_iff.1 hs).1
  refine ⟨hturn.task_eq.trans h.task_eq, h.task_eq ▸ hturn.tree, hturn.isLinked, hcrew, ?_, ?_,
    fun other s'' hs'' => ?_, fun other s'' hs'' hstopped => ?_⟩
  · rw [hturn.searchers_eq, Array.size_setIfInBounds]
    exact h.size
  · rw [hturn.config_eq]
    exact h.unlimited
  all_goals rw [hturn.searchers_eq, Array.getElem?_setIfInBounds] at hs''
  · rw [hturn.config_eq]
    split at hs''
    · split at hs''
      · exact Option.some.inj hs'' ▸ hturn.isPaced
      · exact absurd hs'' (by simp)
    · exact h.isPaced other s'' hs''
  · split at hs''
    · rename_i heq
      subst heq
      rw [if_pos (h.size ▸ hlt)] at hs''
      obtain rfl := Option.some.inj hs''
      -- A worker that has just stopped has found the join finished, or has no order left to run.
      refine hover hlt ?_
      cases hturn.step with
      | ends hfinished _ _ => exact Or.inl hfinished
      | executes _ _ hgoes _ => exact absurd (hgoes.symm.trans hstopped) (by decide)
      | drops _ hgoes _ _ => exact absurd (hgoes.symm.trans hstopped) (by decide)
      | givesUp hrules hnone _ _ =>
        have hall := h.isShareFinished_of_not_admits hp hrules hnone
        rw [h.number_eq hs, ← h.task_eq] at hall
        exact Or.inr hall
    · exact hover (h.size ▸ (Array.getElem?_eq_some_iff.1 hs'').1)
        (h.isOver other s'' hs'' hstopped)

/-- **A turn of a searcher that goes on leaves it fewer turns.** -/
theorem IsLive.searcher_turnsLeft_lt (hactive : s.stopped = false) :
    s'.turnsLeft task.query < s.turnsLeft task.query := by
  have hs' : t'.searchers[number]? = some s' := by
    rw [hturn.searchers_eq]
    exact Array.getElem?_setIfInBounds_self_of_lt (Array.getElem?_eq_some_iff.1 hs).1
  have hw' := getElem?_crew hs'
  have hdelay := s'.delay_le
  unfold Searcher.turnsLeft
  rw [hactive, if_neg Bool.false_ne_true]
  cases hturn.step with
  | ends hfinished hstopped hcrew =>
    rw [hstopped, if_pos rfl]
    exact Nat.succ_pos _
  | executes hunfinished horder hstopped hcrew =>
    -- The order still has a share to do, so the episode leaves less work.
    have hshare := h.isShareFinished_of_admits hp horder
    have hempty : task.hasEmptyTable = false := by
      rw [Bool.eq_false_iff]
      intro hempty
      exact absurd hunfinished (by rw [h.isFinished_of_hasEmptyTable hp hempty]; decide)
    rw [hcrew, h.task_eq] at hw'
    have hwork := h.crew.work_lt hp.toSuits (getElem?_crew hs)
      (h.task_eq ▸ horder.isPermutation) hp.budget_pos hempty hshare hw'
    rw [hstopped, if_neg Bool.false_ne_true]
    omega
  | drops hnone hstopped hcrew hdelay' =>
    -- The work stays, but there are no rules left to drop.
    rw [hcrew, getElem?_crew hs] at hw'
    rw [hstopped, if_neg Bool.false_ne_true, ← Option.some.inj hw']
    omega
  | givesUp hrules hnone hstopped hcrew =>
    rw [hstopped, if_pos rfl]
    exact Nat.succ_pos _

omit hp h hs hturn in
/-- Replacing a member of a list by one of smaller weight. -/
theorem sum_map_set_lt {α : Type} {f : α → Nat} {l : List α} {i : Nat} {a b : α}
    (h : l[i]? = some a) (hlt : f b < f a) : ((l.set i b).map f).sum < (l.map f).sum := by
  induction l generalizing i with
  | nil => exact absurd h (by simp)
  | cons x xs ih =>
    cases i with
    | zero =>
      obtain rfl := Option.some.inj h
      exact Nat.add_lt_add_right hlt _
    | succ i => exact Nat.add_lt_add_left (ih h) _

/-- **A turn of a searcher that goes on leaves the team fewer turns.** -/
theorem IsLive.turnsLeft_lt (hactive : s.stopped = false) : t'.turnsLeft < t.turnsLeft := by
  have hlt := h.searcher_turnsLeft_lt hp hs hturn hactive
  rw [← h.task_eq] at hlt
  unfold turnsLeft
  rw [hturn.task_eq, hturn.searchers_eq, Array.toList_setIfInBounds]
  exact sum_map_set_lt (by rwa [Array.getElem?_toList]) hlt

end Turn

end Team

end AdaptiveJoin
