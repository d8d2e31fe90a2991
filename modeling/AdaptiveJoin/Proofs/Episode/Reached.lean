import AdaptiveJoin.Proofs.Episode.Worker

/-!
# Where a worker has come to

`Worker.reached` is the checkpoint that a worker has reached with an order in the episodes of this
order.  Whatever other orders have left behind on the initial parts of the order, an episode does
not go on from behind this point (`Worker.rowsOf_reached_le`), and so the point at which it stops is
the next one (`Worker.reached_finish`).  Episodes of other orders leave the point alone
(`Worker.reached_finish_of_ne`).
-/

namespace AdaptiveJoin

/-- The checkpoint that a worker has reached with an order. -/
def Worker.reached (w : Worker) (q : Query) (o : JoinOrder) : Checkpoint :=
  w.memory.states[o]?.getD (.start q.nrTables)

/-- The largest rows of an order, counted from the end of the tables. -/
def Query.bounds (q : Query) (o : JoinOrder) : List Nat := o.toList.map q.cardinality

namespace Worker

variable {w : Worker} {q : Query} {progress : Progress} {workers : Nat} {o : JoinOrder}
  {e : Episode} {c : Checkpoint}

theorem forall₂_bounds {tuple : Tuple} (ho : o.IsPermutation q.nrTables)
    (h : ∀ table < q.nrTables, tuple.row table ≤ q.cardinality table) :
    List.Forall₂ (· ≤ ·) (o.rowsOf tuple) (q.bounds o) := by
  rw [JoinOrder.rowsOf, Query.bounds, List.forall₂_map_left_iff, List.forall₂_map_right_iff,
    List.forall₂_same]
  intro table ht
  exact h table (ho.mem_iff.1 ht)

theorem ownCheckpoint_eq (hp : progress.IsFor q workers) :
    w.memory.ownCheckpoint progress o = w.reached q o := by
  unfold Memory.ownCheckpoint
  unfold reached
  rw [hp.nrTables_eq]

/-- Nothing has been reached before the first episode. -/
theorem reached_start (task : Task) (number : Nat) (q : Query) (o : JoinOrder) :
    (Worker.start task number).reached q o = .start q.nrTables := by
  simp [reached, Worker.start, Memory.start]

theorem IsSettled.reached {found : Tuple → Prop} (h : w.IsSettled q found workers) (o : JoinOrder) :
    (w.reached q o).IsSettled q found workers w.number o := by
  unfold Worker.reached
  cases hstate : w.memory.states[o]? with
  | none => exact Checkpoint.isSettled_start o
  | some c => exact h.worker_eq ▸ h.memory.states o c hstate

/-- **An episode does not go on from behind the point reached.** -/
theorem rowsOf_reached_le {task : Task} (hp : progress.IsFor q workers)
    (hbegin : w.begin? task progress o = .ok c) :
    (w.reached q o).finished = false ∧ o.rowsOf (w.reached q o).tuple ≤ o.rowsOf c.tuple := by
  obtain ⟨-, rfl, hunfinished, -⟩ := begin?_eq_ok hbegin
  obtain ⟨hown, -⟩ := w.memory.isAheadOf_continueFrom progress o
  rw [ownCheckpoint_eq hp, Bool.eq_false_iff, ne_eq, Checkpoint.isAheadOf_iff, not_or] at hown
  have hreached : (w.reached q o).finished = false := by
    rw [Bool.eq_false_iff]
    exact fun hfinished => hown.1 ⟨hfinished, hunfinished⟩
  exact ⟨hreached, not_lt.1 fun hlt => hown.2 ⟨hreached.trans hunfinished.symm, hlt⟩⟩

/-- Episodes of other orders leave the point reached alone. -/
theorem reached_finish_of_ne (hne : o ≠ e.order) :
    (w.finish e progress c).2.1.reached q o = w.reached q o := by
  unfold reached
  rw [finish_memory, Memory.record_states_of_ne hne]

/-- **The point at which an episode stops is the next one reached.** -/
theorem reached_finish (h : e.IsAscending) (hfits : e.Fits ⟨c.tuple, w.cursors, #[], 0⟩)
    (hunfinished : (w.reached q e.order).finished = false)
    (hle : e.order.rowsOf (w.reached q e.order).tuple ≤ e.order.rowsOf c.tuple) :
    (w.finish e progress c).2.1.reached q e.order = Episode.stop (e.run c.tuple w.cursors) := by
  unfold reached
  rw [finish_memory, Memory.record_states_self, Option.getD_some]
  cases hstate : w.memory.states[e.order]? with
  | none => rfl
  | some old =>
    have hold : w.reached q e.order = old := by rw [reached, hstate, Option.getD_some]
    rw [hold] at hunfinished hle
    -- The checkpoint remembered is replaced, because it is not ahead of the stop.
    have hbehind : old.isAheadOf (Episode.stop (e.run c.tuple w.cursors)) e.order = false := by
      rw [Bool.eq_false_iff, ne_eq, Checkpoint.isAheadOf_iff]
      rintro (⟨hfinished, -⟩ | ⟨heq, hlt⟩)
      · exact absurd (hunfinished.symm.trans hfinished) (by decide)
      · -- The episode is not over, so it has not moved back.
        cases hend : (e.run c.tuple w.cursors).1 with
        | none =>
          rw [hunfinished, Episode.stop, hend] at heq
          exact absurd heq (by simp)
        | some pos =>
          have hge := (Episode.run_ascent h hfits).le pos hend
          exact absurd hlt (not_lt.2 (hle.trans hge))
    simp [hbehind]

end Worker

end AdaptiveJoin
