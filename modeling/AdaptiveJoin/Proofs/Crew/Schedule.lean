import AdaptiveJoin.Proofs.Crew.Basic

/-!
# Schedules of whole episodes

The workers of a crew run episodes one after the other, every episode of any worker and any order.
A schedule lists the workers and the orders of the episodes.

`Crew.IsSound.run` says that the invariant holds after every schedule.
-/

namespace AdaptiveJoin

namespace Crew

/-- One episode of a worker; a number that names no worker changes nothing. -/
def execute (c : Crew) (task : Task) (number : Nat) (order : JoinOrder) : Option Outcome × Crew :=
  match c.workers[number]? with
  | none => (none, c)
  | some w =>
    let (outcome, w, shared) := w.execute task c.shared order
    (some outcome, ⟨shared, c.workers.setIfInBounds number w⟩)

/-- The crew after a schedule: the worker and the order of every episode. -/
def run (c : Crew) (task : Task) (schedule : List (Nat × JoinOrder)) : Crew :=
  schedule.foldl (fun c entry => (c.execute task entry.1 entry.2).2) c

variable {c : Crew} {p : Planner} {task : Task} {workers : Nat}

/-- The episode of a worker with the plan and the snapshot of the moment. -/
def episode (c : Crew) (task : Task) (w : Worker) (order : JoinOrder) : Episode :=
  w.episode task c.shared.progress (c.shared.plans.plan order).1 c.shared.progress.snapshot

/-- **An episode has nothing to do and changes nothing, or it goes on from a checkpoint.** -/
theorem execute_cases {number : Nat} {w : Worker} (hw : c.workers[number]? = some w)
    (order : JoinOrder) :
    (∃ outcome, w.begin? task c.shared.progress order = .error outcome ∧
      c.execute task number order = (some outcome, c)) ∨
    ∃ checkpoint, w.begin? task c.shared.progress order = .ok checkpoint ∧
      c.execute task number order =
        (some (w.finish (c.episode task w order) c.shared.progress checkpoint).1,
          c.finish number w (c.shared.plans.plan order).2 (c.episode task w order) checkpoint) := by
  unfold execute
  rw [hw]
  simp only [Worker.execute]
  cases hbegin : w.begin? task c.shared.progress order with
  | error outcome =>
    obtain ⟨hlt, hself⟩ := Array.getElem?_eq_some_iff.1 hw
    -- The worker itself is put back as it was.
    have hsame : c.workers.setIfInBounds number w = c.workers := by
      rw [← hself]
      simp [Array.setIfInBounds, hlt]
    simp [hsame]
  | ok checkpoint => exact Or.inr ⟨checkpoint, rfl, rfl⟩

theorem execute_of_none {number : Nat} (hw : c.workers[number]? = none) (order : JoinOrder) :
    c.execute task number order = (none, c) := by
  unfold execute
  rw [hw]

theorem size_execute (c : Crew) (task : Task) (number : Nat) (order : JoinOrder) :
    (c.execute task number order).2.workers.size = c.workers.size := by
  cases hw : c.workers[number]? with
  | none => rw [execute_of_none hw]
  | some w =>
    rcases execute_cases hw order with ⟨outcome, -, heq⟩ | ⟨checkpoint, -, heq⟩
    · rw [heq]
    · rw [heq]
      exact Array.size_setIfInBounds

theorem size_run (c : Crew) (task : Task) (schedule : List (Nat × JoinOrder)) :
    (c.run task schedule).workers.size = c.workers.size := by
  induction schedule generalizing c with
  | nil => rfl
  | cons entry rest ih => exact (ih _).trans (size_execute c task entry.1 entry.2)

theorem episode_order (hshared : c.shared.IsSound p task workers) (w : Worker)
    (order : JoinOrder) : (c.episode task w order).order = order := by
  show (c.shared.plans.plan order).1.order = order
  rw [PlanCache.plan_eq hshared.isFaithful]
  rfl

section Sound

variable (hp : p.Serves task workers)

include hp

/-- The episode of a sound crew is well-formed. -/
theorem IsSound.isWellFormed_episode (hc : c.IsSound p task workers) {number : Nat} {w : Worker}
    (hw : c.workers[number]? = some w) {order : JoinOrder}
    (horder : order.IsPermutation task.query.nrTables) :
    (c.episode task w order).IsWellFormed p := by
  refine Worker.isWellFormed_episode hp hc.shared.isFor horder (hc.worker number w hw).number_lt
    ?_ ⟨c.shared.progress.offsets, ?_⟩
  · rw [PlanCache.plan_eq hc.shared.isFaithful, hc.shared.planner_eq]
  · unfold Progress.snapshot
    rw [hc.shared.isFor.workers_eq, hc.shared.isFor.nrTables_eq]

omit hp in
theorem IsSound.workers_pos (hc : c.IsSound p task workers) : 0 < workers :=
  hc.shared.isFor.workers_eq ▸ hc.shared.isFor.workers_pos

omit hp in
/-- The snapshot of the moment is settled. -/
theorem IsSound.isSettled_snapshot (hc : c.IsSound p task workers) :
    c.shared.progress.snapshot.IsSettled task.query c.Found := by
  have hworkers := hc.shared.isFor.workers_eq
  unfold Progress.snapshot
  rw [hworkers]
  exact Snapshot.isSettled_ofOffsets hc.workers_pos (fun table _ share _ =>
    ⟨c.shared.progress, hworkers, hc.progress, by rw [Progress.offset, Progress.slot, hworkers]⟩) _

/-- **An episode keeps the invariant.** -/
theorem IsSound.execute (hmasks : task.HasExactMasks) (hc : c.IsSound p task workers) (number : Nat)
    {order : JoinOrder} (horder : order.IsPermutation task.query.nrTables) :
    (c.execute task number order).2.IsSound p task workers := by
  cases hw : c.workers[number]? with
  | none => rwa [execute_of_none hw]
  | some w =>
    rcases execute_cases hw order with ⟨outcome, -, heq⟩ | ⟨checkpoint, hbegin, heq⟩
    · -- An episode that does not begin changes nothing.
      rwa [heq]
    · rw [heq]
      have horder' := episode_order hc.shared w order
      refine hc.finish hmasks hw ?_ (hc.shared.isFaithful.plan order)
        (hc.isWellFormed_episode hp hw horder) rfl hc.shared.isFor.workers_eq rfl ?_
        hc.isSettled_snapshot
      · rw [PlanCache.plan_planner, hc.shared.planner_eq]
      · rw [horder']
        exact Worker.isSettled_of_begin? hp.nrTables_pos (hc.worker number w hw) hc.shared.isFor
          horder hbegin

/-- **The invariant holds after every schedule.** -/
theorem IsSound.run (hmasks : task.HasExactMasks) (hc : c.IsSound p task workers)
    {schedule : List (Nat × JoinOrder)}
    (hschedule : ∀ entry ∈ schedule, entry.2.IsPermutation task.query.nrTables) :
    (c.run task schedule).IsSound p task workers := by
  induction schedule generalizing c with
  | nil => exact hc
  | cons entry rest ih =>
    exact ih (hc.execute hp hmasks entry.1 (hschedule entry List.mem_cons_self))
      fun entry' hentry' => hschedule entry' (List.mem_cons_of_mem _ hentry')

end Sound

end Crew

end AdaptiveJoin
