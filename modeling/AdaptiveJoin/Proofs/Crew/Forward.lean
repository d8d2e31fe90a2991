import AdaptiveJoin.Proofs.Crew.Schedule
import AdaptiveJoin.Proofs.Episode.Reached

/-!
# Crews move forward

A crew whose planner makes lookups that only move forward (`Planner.Suits`) runs ascending episodes,
whatever its predicates, filters and snapshots are.  `Crew.IsOrderly` is the invariant: every worker
goes on from within the tables.

* `Crew.IsOrderly.episode`: the episode of a worker ascends from a point that is not behind the one
  that the worker has reached.
* `Crew.IsOrderly.execute` and `Crew.IsOrderly.run`: the invariant holds after every schedule.
-/

namespace AdaptiveJoin

/-- A planner makes plans for the query of a task, with lookups that only move forward. -/
structure Planner.Suits (p : Planner) (task : Task) : Prop where
  nrTables_pos : 0 < task.query.nrTables
  query_eq : p.query = task.query
  hasAscendingLookups : p.HasAscendingLookups

theorem Worker.isAscending_episode {p : Planner} {task : Task} {progress : Progress} {w : Worker}
    {order : JoinOrder} {plan : Plan} {snapshot : Snapshot} {workers : Nat} (h : p.Suits task)
    (hprogress : progress.IsFor task.query workers) (ho : order.IsPermutation task.query.nrTables)
    (hplan : plan = p.plan order) : (w.episode task progress plan snapshot).IsAscending := by
  subst hplan
  refine ⟨ho, h.nrTables_pos, hprogress.workers_pos, fun pos hpos l hl => ?_⟩
  have hposition : (p.plan order).position? pos =
      some (p.position (order.joined pos) (order.tableAt pos)) :=
    p.position?_plan (ho.size_eq ▸ hpos)
  replace hl : ((p.plan order).position? pos).bind PositionPlan.lookup = some l := hl
  rw [hposition, Option.bind_some, Planner.position_lookup] at hl
  have hascends := h.hasAscendingLookups _ _ l hl
  rw [h.query_eq, ← hprogress.cardinality_eq] at hascends
  exact hascends

namespace Crew

/-- The invariant of a crew.  Settled checkpoints, as long as nothing has to be found, are those
that lie within the tables. -/
structure IsOrderly (c : Crew) (p : Planner) (task : Task) (workers : Nat) : Prop where
  shared : c.shared.IsSound p task workers
  number : ∀ (number : Nat) (w : Worker), c.workers[number]? = some w → w.number = number
  worker : ∀ (number : Nat) (w : Worker), c.workers[number]? = some w →
    w.IsSettled task.query (fun _ => True) workers

variable {c : Crew} {p : Planner} {task : Task} {workers : Nat}

/-- The planner of a valid query suits its task. -/
theorem suits_planner {q : Query} (hvalid : q.validate = .ok ()) {catalog : Catalog}
    (hcatalog : catalog.IsBuiltFor q) (masks : Array (Option RowMask)) (config : Config)
    (workers : Nat) :
    (planner (.ofQuery q masks config) catalog workers).Suits (.ofQuery q masks config) where
  nrTables_pos := (Query.isValid_of_validate hvalid).nrTables_pos
  query_eq := rfl
  hasAscendingLookups := Planner.hasAscendingLookups hcatalog

/-- A crew that has run nothing is orderly. -/
theorem isOrderly_start {task : Task} {catalog : Catalog} {workers : Nat}
    (hq : task.query.IsValid) :
    (start task catalog workers).IsOrderly (planner task catalog workers) task
      (Progress.start task.query.rowCounts workers).workers where
  shared := (isSound_start hq).shared
  number := (isSound_start hq).number
  worker number w hw := ((isSound_start hq).worker number w hw).mono fun _ _ => trivial

/-- **Finishing an episode that has started from within the tables keeps the invariant**, whatever
its snapshot is. -/
theorem IsOrderly.finishFrom (hp : p.Suits task) (hc : c.IsOrderly p task workers) {number : Nat}
    {w : Worker} (hw : c.workers[number]? = some w) {order : JoinOrder}
    (horder : order.IsPermutation task.query.nrTables) {snapshot : Snapshot}
    {checkpoint : Checkpoint}
    (hfits : (w.episode task c.shared.progress (c.shared.plans.plan order).1 snapshot).Fits
      ⟨checkpoint.tuple, w.cursors, #[], 0⟩) :
    (c.finish number w (c.shared.plans.plan order).2
      (w.episode task c.shared.progress (c.shared.plans.plan order).1 snapshot)
      checkpoint).IsOrderly p task workers := by
  have hset := hc.worker number w hw
  have hfor := hc.shared.isFor
  have hplan := PlanCache.plan_eq hc.shared.isFaithful order
  have hascending : (w.episode task c.shared.progress (c.shared.plans.plan order).1
      snapshot).IsAscending :=
    Worker.isAscending_episode hp hfor horder (hplan.trans (by rw [hc.shared.planner_eq]))
  have hascent := Episode.run_ascent hascending hfits
  refine ⟨⟨(PlanCache.plan_planner _ _).trans hc.shared.planner_eq, hc.shared.isFaithful.plan order,
    ?_⟩, fun number' w' hw' => ?_, fun number' w' hw' => ?_⟩
  · -- The progress stays that of the query.
    have hnumber : w.number < c.shared.progress.workers := hfor.workers_eq.symm ▸ hset.number_lt
    have hfor' : c.shared.progress.IsFor task.query c.shared.progress.workers :=
      hfor.workers_eq.symm ▸ hfor
    have hend := Worker.finish_isFor (c := checkpoint) hascending hfor' hnumber hset.worker_eq
    exact hfor.workers_eq ▸ hend
  · rcases getElem?_workers_finish hw' with ⟨rfl, rfl⟩ | hw'
    · exact hc.number number' w hw
    · exact hc.number number' w' hw'
  · rcases getElem?_workers_finish hw' with ⟨rfl, rfl⟩ | hw'
    · -- What the worker remembers of the stop are rows of the tables.
      refine ⟨hset.number_lt, ?_, ?_⟩
      · rw [Worker.finish_memory, Memory.record_worker]
        exact hset.worker_eq
      · rw [Worker.finish_memory, show (Worker.episode ..).order = order by rw [hplan]; rfl]
        refine hset.memory.record horder hp.nrTables_pos ⟨hascent.fits.size, fun table ht => ?_,
          fun _ _ _ => trivial⟩
        rw [← hfor.cardinality_eq table]
        exact hascent.fits.row_le table ht
    · exact hc.worker number' w' hw'

section Episode

variable (hp : p.Suits task) (hc : c.IsOrderly p task workers) {number : Nat} {w : Worker}
  (hw : c.workers[number]? = some w) {order : JoinOrder}
  (horder : order.IsPermutation task.query.nrTables)

include hp hc

include horder in
theorem IsOrderly.isAscending_episode : (c.episode task w order).IsAscending := by
  refine Worker.isAscending_episode hp hc.shared.isFor horder ?_
  rw [PlanCache.plan_eq hc.shared.isFaithful, hc.shared.planner_eq]

include hw horder

/-- A worker goes on from within the tables. -/
theorem IsOrderly.fits_episode {checkpoint : Checkpoint}
    (hbegin : w.begin? task c.shared.progress order = .ok checkpoint) :
    (c.episode task w order).Fits ⟨checkpoint.tuple, w.cursors, #[], 0⟩ := by
  have hcheckpoint := Worker.isSettled_of_begin? hp.nrTables_pos (hc.worker number w hw)
    hc.shared.isFor horder hbegin
  rw [← episode_order hc.shared w order] at hcheckpoint
  exact Episode.fits_of_isSettled (e := c.episode task w order)
    (fun table _ => hc.shared.isFor.cardinality_eq table) hcheckpoint w.cursors

/-- **The point at which an episode of a worker stops is the next one that the worker has
reached**, and the episode has not started from behind the last one. -/
theorem IsOrderly.reached_finish {checkpoint : Checkpoint}
    (hbegin : w.begin? task c.shared.progress order = .ok checkpoint) :
    (w.reached task.query order).finished = false ∧
    order.rowsOf (w.reached task.query order).tuple ≤ order.rowsOf checkpoint.tuple ∧
    (w.finish (c.episode task w order) c.shared.progress checkpoint).2.1.reached task.query order =
      Episode.stop ((c.episode task w order).run checkpoint.tuple w.cursors) := by
  obtain ⟨hunfinished, hle⟩ := Worker.rowsOf_reached_le hc.shared.isFor hbegin
  have hreached := @Worker.reached_finish w task.query c.shared.progress
    (c.episode task w order) checkpoint (hc.isAscending_episode hp horder)
    (hc.fits_episode hp hw horder hbegin)
  rw [episode_order hc.shared w order] at hreached
  exact ⟨hunfinished, hle, hreached hunfinished hle⟩

/-- **Finishing an episode keeps the invariant.** -/
theorem IsOrderly.finish {checkpoint : Checkpoint}
    (hbegin : w.begin? task c.shared.progress order = .ok checkpoint) :
    (c.finish number w (c.shared.plans.plan order).2 (c.episode task w order)
      checkpoint).IsOrderly p task workers :=
  hc.finishFrom hp hw horder (hc.fits_episode hp hw horder hbegin)

end Episode

/-- **An episode keeps the invariant.** -/
theorem IsOrderly.execute (hp : p.Suits task) (hc : c.IsOrderly p task workers) (number : Nat)
    {order : JoinOrder} (horder : order.IsPermutation task.query.nrTables) :
    (c.execute task number order).2.IsOrderly p task workers := by
  cases hw : c.workers[number]? with
  | none => rwa [execute_of_none hw]
  | some w =>
    rcases execute_cases hw order with ⟨outcome, -, heq⟩ | ⟨checkpoint, hbegin, heq⟩
    · rwa [heq]
    · rw [heq]
      exact hc.finish hp hw horder hbegin

end Crew

end AdaptiveJoin
