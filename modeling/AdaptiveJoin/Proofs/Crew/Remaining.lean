import Mathlib.Algebra.Order.BigOperators.Group.List
import Mathlib.Algebra.Order.Group.Nat
import Mathlib.Data.List.Permutation
import AdaptiveJoin.Proofs.Crew.Forward
import AdaptiveJoin.Proofs.Progress.Published

/-!
# What a worker has left to do

The loops of an order pass through finitely many points.  `Worker.work` counts the points that a
worker has still ahead of it, in all orders together.  `Crew.IsLive` is the invariant of a crew that
does not get stuck: besides being orderly, its workers have published the ends that they have seen.

* `Crew.IsLive.execute`: the invariant holds after every episode.
* `Crew.IsLive.exists_begin?`: an order can go on as long as the share of its outermost table is not
  finished.
* `Crew.IsLive.work_lt`: every such episode leaves the worker less to do.
-/

namespace AdaptiveJoin

/-! ### Points ahead -/

namespace Query

/-- The join orders of a query. -/
def orders (q : Query) : List JoinOrder :=
  (List.range q.nrTables).permutations.map .ofList

theorem mem_orders {q : Query} {o : JoinOrder} : o ∈ q.orders ↔ o.IsPermutation q.nrTables := by
  unfold orders
  rw [List.mem_map]
  constructor
  · rintro ⟨tables, htables, rfl⟩
    exact List.mem_permutations.1 htables
  · intro ho
    exact ⟨o.toList, List.mem_permutations.2 ho, rfl⟩

/-- The number of points in the loops of an order. -/
def nrPoints (q : Query) (o : JoinOrder) : Nat := ((q.bounds o).map (· + 1)).prod

/-- The number of points in the loops of all orders. -/
def nrAllPoints (q : Query) : Nat := (q.orders.map q.nrPoints).sum

end Query

/-- The number of points from a checkpoint of an order on. -/
def Checkpoint.pointsLeft (c : Checkpoint) (q : Query) (o : JoinOrder) : Nat :=
  if c.finished then 0 else q.nrPoints o - rank (q.bounds o) (o.rowsOf c.tuple)

/-- The number of points that a worker has ahead of it in all orders. -/
def Worker.work (w : Worker) (q : Query) : Nat :=
  (q.orders.map fun o => (w.reached q o).pointsLeft q o).sum

section PointsLeft

variable {q : Query} {o : JoinOrder} {c c' : Checkpoint} {w : Worker} {found : Tuple → Prop}
  {workers worker : Nat}

theorem Checkpoint.pointsLeft_le (c : Checkpoint) (q : Query) (o : JoinOrder) :
    c.pointsLeft q o ≤ q.nrPoints o := by
  unfold pointsLeft
  split
  · exact Nat.zero_le _
  · exact Nat.sub_le _ _

/-- A checkpoint further ahead leaves fewer points. -/
theorem Checkpoint.IsSettled.pointsLeft_lt (ho : o.IsPermutation q.nrTables)
    (hc : c.IsSettled q found workers worker o) (hc' : c'.IsSettled q found workers worker o)
    (hunfinished : c.finished = false)
    (hahead : c'.finished = false → o.rowsOf c.tuple < o.rowsOf c'.tuple) :
    c'.pointsLeft q o < c.pointsLeft q o := by
  have hrows := Worker.forall₂_bounds ho hc.row_le
  have hlt := rank_lt hrows
  unfold pointsLeft Query.nrPoints
  rw [hunfinished]
  cases hfinished : c'.finished with
  | true =>
    simp only [if_true, Bool.false_eq_true, if_false]
    omega
  | false =>
    have hrank := rank_lt_rank hrows (Worker.forall₂_bounds ho hc'.row_le) (hahead hfinished)
    simp only [Bool.false_eq_true, if_false]
    omega

theorem Worker.work_le (w : Worker) (q : Query) : w.work q ≤ q.nrAllPoints :=
  List.sum_le_sum fun o _ => (w.reached q o).pointsLeft_le q o

/-- A worker that has come ahead with one order and not moved with the others has less to do. -/
theorem Worker.work_lt_of_reached {w' : Worker} (ho : o.IsPermutation q.nrTables)
    (hlt : (w'.reached q o).pointsLeft q o < (w.reached q o).pointsLeft q o)
    (hsame : ∀ o', o' ≠ o → w'.reached q o' = w.reached q o') : w'.work q < w.work q := by
  refine List.sum_lt_sum _ _ (fun o' _ => ?_) ⟨o, Query.mem_orders.2 ho, hlt⟩
  by_cases heq : o' = o
  · exact heq ▸ hlt.le
  · rw [hsame o' heq]

end PointsLeft

namespace Crew

/-- The invariant of a crew that does not get stuck. -/
structure IsLive (c : Crew) (p : Planner) (task : Task) (workers : Nat) : Prop
    extends c.IsOrderly p task workers where
  isPublished : ∀ (number : Nat) (w : Worker), c.workers[number]? = some w →
    w.memory.IsPublished c.shared.progress

variable {c : Crew} {p : Planner} {task : Task} {workers : Nat}

theorem isLive_start {task : Task} {catalog : Catalog} {workers : Nat} (hq : task.query.IsValid) :
    (start task catalog workers).IsLive (planner task catalog workers) task
      (Progress.start task.query.rowCounts workers).workers where
  toIsOrderly := isOrderly_start hq
  isPublished number w hw := by
    obtain ⟨-, rfl⟩ := getElem?_start_workers task catalog workers hw
    exact Memory.isPublished_start number _

section Episode

variable (hp : p.Suits task) (hc : c.IsLive p task workers) {number : Nat} {w : Worker}
  (hw : c.workers[number]? = some w) {order : JoinOrder}
  (horder : order.IsPermutation task.query.nrTables)

include hp hc hw horder

/-- An episode finishes shares only. -/
theorem IsLive.isBefore_finish (plans : PlanCache) (checkpoint : Checkpoint) :
    c.shared.progress.IsBefore
      (c.finish number w plans (c.episode task w order) checkpoint).shared.progress workers := by
  have hset := hc.worker number w hw
  unfold Crew.finish
  rw [Worker.finish_progress, episode_order hc.shared w order]
  exact hc.shared.isFor.isBefore_publish (horder.tableAt_lt hp.nrTables_pos)
    (hset.worker_eq ▸ hset.number_lt) _

theorem IsLive.finish {checkpoint : Checkpoint}
    (hbegin : w.begin? task c.shared.progress order = .ok checkpoint) :
    (c.finish number w (c.shared.plans.plan order).2 (c.episode task w order)
      checkpoint).IsLive p task workers := by
  have hbefore := hc.isBefore_finish hp hw horder (c.shared.plans.plan order).2 checkpoint
  refine ⟨hc.toIsOrderly.finish hp hw horder hbegin, fun number' w' hw' => ?_⟩
  have hworker {number : Nat} {w : Worker} (hw : c.workers[number]? = some w) :
      w.memory.worker < workers := by
    have hset := hc.worker number w hw
    exact hset.worker_eq ▸ hset.number_lt
  rcases getElem?_workers_finish hw' with ⟨rfl, rfl⟩ | hw'
  · rw [← episode_order hc.shared w order] at horder
    exact (hc.isPublished number' w hw).update hc.shared.isFor horder hp.nrTables_pos (hworker hw) _
  · exact (hc.isPublished number' w' hw').mono hbefore (hworker hw')

/-- **An order can go on** as long as the share of its outermost table is not finished. -/
theorem IsLive.exists_begin? (hempty : task.hasEmptyTable = false)
    (hshare : c.shared.progress.isShareFinished order.leftmost w.number = false) :
    ∃ checkpoint, w.begin? task c.shared.progress order = .ok checkpoint := by
  cases hbegin : w.begin? task c.shared.progress order with
  | ok checkpoint => exact ⟨checkpoint, rfl⟩
  | error outcome =>
    obtain ⟨-, -, hnone | hnone | hnone | hnone⟩ := Worker.begin?_eq_error hbegin
    · exact absurd (horder.isEmpty_eq_false hp.nrTables_pos) (by rw [hnone]; decide)
    · exact absurd hempty (by rw [hnone]; decide)
    · have hfinished := (hc.isPublished number w hw).continueFrom
        (horder.size_eq.symm ▸ hp.nrTables_pos) hnone
      rw [(hc.worker number w hw).worker_eq, hshare] at hfinished
      exact absurd hfinished (by decide)
    · exact absurd hshare (by rw [hnone]; decide)

/-- **Every episode that goes on leaves the worker less to do.** -/
theorem IsLive.work_finish_lt (hbudget : 0 < task.budget) {checkpoint : Checkpoint}
    (hbegin : w.begin? task c.shared.progress order = .ok checkpoint) :
    (w.finish (c.episode task w order) c.shared.progress checkpoint).2.1.work task.query <
      w.work task.query := by
  obtain ⟨hunfinished, hle, hstop⟩ := hc.reached_finish hp hw horder hbegin
  have hset := hc.worker number w hw
  have hset' : (w.finish (c.episode task w order) c.shared.progress checkpoint).2.1.IsSettled
      task.query (fun _ => True) workers := by
    refine (hc.toIsOrderly.finish hp hw horder hbegin).worker number _ ?_
    exact Array.getElem?_setIfInBounds_self_of_lt (Array.getElem?_eq_some_iff.1 hw).1
  have hlt := (hset.reached order).pointsLeft_lt horder (hset'.reached order) hunfinished
    fun hgoes => by
      rw [hstop] at hgoes ⊢
      cases hend : ((c.episode task w order).run checkpoint.tuple w.cursors).1 with
      | none =>
        rw [Episode.stop, hend] at hgoes
        exact absurd hgoes (by simp)
      | some pos =>
        -- The episode has been stopped by its budget, so it has come ahead.
        have hahead := Episode.run_ahead (hc.isAscending_episode hp horder)
          (hc.fits_episode hp hw horder hbegin) hbudget hend
        rw [episode_order hc.shared w order] at hahead
        exact hle.trans_lt hahead
  -- For all other orders nothing has changed.
  refine Worker.work_lt_of_reached horder hlt fun order' hne => ?_
  rw [← episode_order hc.shared w order] at hne
  exact Worker.reached_finish_of_ne hne

end Episode

/-- **An episode keeps the invariant, and finishes shares only.** -/
theorem IsLive.execute (hp : p.Suits task) (hc : c.IsLive p task workers) (number : Nat)
    {order : JoinOrder} (horder : order.IsPermutation task.query.nrTables) :
    (c.execute task number order).2.IsLive p task workers ∧
      c.shared.progress.IsBefore (c.execute task number order).2.shared.progress workers := by
  cases hw : c.workers[number]? with
  | none =>
    rw [execute_of_none hw]
    exact ⟨hc, .refl _ _⟩
  | some w =>
    rcases execute_cases hw order with ⟨outcome, -, heq⟩ | ⟨checkpoint, hbegin, heq⟩
    · rw [heq]
      exact ⟨hc, .refl _ _⟩
    · rw [heq]
      exact ⟨hc.finish hp hw horder hbegin, hc.isBefore_finish hp hw horder _ checkpoint⟩

/-- **An episode of an order with an unfinished share leaves its worker less to do.** -/
theorem IsLive.work_lt (hp : p.Suits task) (hc : c.IsLive p task workers) {number : Nat}
    {w w' : Worker} (hw : c.workers[number]? = some w) {order : JoinOrder}
    (horder : order.IsPermutation task.query.nrTables) (hbudget : 0 < task.budget)
    (hempty : task.hasEmptyTable = false)
    (hshare : c.shared.progress.isShareFinished order.leftmost w.number = false)
    (hw' : (c.execute task number order).2.workers[number]? = some w') :
    w'.work task.query < w.work task.query := by
  obtain ⟨checkpoint, hbegin⟩ := hc.exists_begin? hp hw horder hempty hshare
  rcases execute_cases hw order with ⟨outcome, hnone, -⟩ | ⟨checkpoint', hbegin', heq⟩
  · exact absurd (hbegin.symm.trans hnone) (by simp)
  · rw [heq, Crew.finish,
      Array.getElem?_setIfInBounds_self_of_lt (Array.getElem?_eq_some_iff.1 hw).1] at hw'
    exact Option.some.inj hw' ▸ hc.work_finish_lt hp hw horder hbudget hbegin'

end Crew

end AdaptiveJoin
