import AdaptiveJoin.Episode.Worker
import AdaptiveJoin.Proofs.Episode.Run
import AdaptiveJoin.Proofs.Plan.Cache
import AdaptiveJoin.Proofs.Progress.Settled

/-!
# Episodes keep everything settled

An episode of a worker goes on from a settled checkpoint with a settled snapshot.  Its results
together with those found before settle the checkpoint at which it stops (`Episode.isSettled_stop`),
and so everything that the worker records and publishes (`Worker.finish_isSettled`,
`Worker.finish_progress_isSettled`).
-/

namespace AdaptiveJoin

/-- A planner serves a task for a number of workers: it makes plans for the query of the task, whose
predicates are understood, with lookups that miss nothing. -/
structure Planner.Serves (p : Planner) (task : Task) (workers : Nat) : Prop where
  nrTables_pos : 0 < task.query.nrTables
  nrTables_le : task.query.nrTables ≤ maxTables
  explains : ∀ q ∈ task.query.predicates, task.query.Explains q
  tables_ne_nil : ∀ q ∈ task.query.predicates, q.tables ≠ []
  query_eq : p.query = task.query
  masked_eq : p.masked = task.masked
  partitioned_eq : p.partitioned = decide (1 < workers)
  hasCompleteLookups : p.HasCompleteLookups

/-- What the workers share fits a planner and a task. -/
structure Shared.IsSound (s : Shared) (p : Planner) (task : Task) (workers : Nat) : Prop where
  planner_eq : s.plans.planner = p
  isFaithful : s.plans.IsFaithful
  isFor : s.progress.IsFor task.query workers

/-- A worker all of whose checkpoints are settled. -/
structure Worker.IsSettled (w : Worker) (q : Query) (found : Tuple → Prop) (workers : Nat) :
    Prop where
  number_lt : w.number < workers
  worker_eq : w.memory.worker = w.number
  memory : w.memory.IsSettled q found workers

/-- A task knows whether some table has no rows. -/
def Task.KnowsEmptyTables (t : Task) : Prop :=
  t.hasEmptyTable = true ↔ ∃ table < t.query.nrTables, t.query.cardinality table = 0

theorem Task.knowsEmptyTables_ofQuery (q : Query) (masks : Array (Option RowMask))
    (config : Config) : (Task.ofQuery q masks config).KnowsEmptyTables := by
  show (q.rowCounts.any (· == 0)) = true ↔ ∃ table < q.nrTables, q.cardinality table = 0
  rw [Array.any_eq_true]
  have hsize : q.rowCounts.size = q.nrTables := by simp [Query.rowCounts, Query.nrTables]
  have hrow : ∀ (i : Nat) (h : i < q.rowCounts.size),
      (q.rowCounts[i] == 0) = true ↔ q.cardinality i = 0 := by
    intro i h
    have hi : i < q.tables.size := by
      rw [hsize] at h
      exact h
    simp only [Query.rowCounts, Array.getElem_map, beq_iff_eq, Query.cardinality, hi, getElem?_pos,
      Option.map_some, Option.getD_some, rowLimit]
    omega
  constructor
  · rintro ⟨i, h, heq⟩
    exact ⟨i, hsize ▸ h, (hrow i h).1 heq⟩
  · rintro ⟨i, h, heq⟩
    exact ⟨i, hsize.symm ▸ h, (hrow i (hsize.symm ▸ h)).2 heq⟩

variable {q : Query} {found found' : Tuple → Prop} {workers : Nat}

theorem Worker.IsSettled.mono {w : Worker} (hsub : ∀ tuple, found tuple → found' tuple)
    (h : w.IsSettled q found workers) : w.IsSettled q found' workers :=
  ⟨h.number_lt, h.worker_eq, h.memory.mono hsub⟩

theorem Worker.isSettled_start (task : Task) {number : Nat} (h : number < workers) :
    (Worker.start task number).IsSettled q found workers :=
  ⟨h, rfl, Memory.isSettled_start number⟩

/-! ### The episode of a worker -/

/-- The episode of a worker with a plan for its order. -/
theorem Worker.isPlanned_episode {p : Planner} {task : Task} {progress : Progress} {w : Worker}
    {order : JoinOrder} {plan : Plan} {snapshot : Snapshot} (hpos : 0 < task.query.nrTables)
    (hle : task.query.nrTables ≤ maxTables) (hquery : p.query = task.query)
    (hpartitioned : p.partitioned = decide (1 < workers))
    (hprogress : progress.IsFor task.query workers) (ho : order.IsPermutation task.query.nrTables)
    (hw : w.number < workers) (hplan : plan = p.plan order) :
    (w.episode task progress plan snapshot).IsPlanned p where
  isPermutation := by rwa [hplan]
  nrTables_pos := hpos
  nrTables_le := hle
  plan_eq := by simp only [episode, hplan, Planner.plan]
  query_eq := hquery
  partitioned_eq := by
    rw [hpartitioned, ← hprogress.workers_eq]
    rfl
  cardinality_eq := fun table _ => hprogress.cardinality_eq table
  worker_lt := by
    rw [← hprogress.workers_eq] at hw
    exact hw

theorem Worker.isWellFormed_episode {p : Planner} {task : Task} {progress : Progress} {w : Worker}
    {order : JoinOrder} {plan : Plan} {snapshot : Snapshot} (h : p.Serves task workers)
    (hprogress : progress.IsFor task.query workers) (ho : order.IsPermutation task.query.nrTables)
    (hw : w.number < workers) (hplan : plan = p.plan order)
    (hsnapshot : ∃ offsets, snapshot = .ofOffsets workers task.query.nrTables offsets) :
    (w.episode task progress plan snapshot).IsWellFormed p where
  toIsPlanned := Worker.isPlanned_episode h.nrTables_pos h.nrTables_le h.query_eq h.partitioned_eq
    hprogress ho hw hplan
  explains := h.explains
  tables_ne_nil := h.tables_ne_nil
  masked_eq := h.masked_eq
  hasCompleteLookups := h.hasCompleteLookups
  snapshot_eq := by
    rw [← hprogress.workers_eq] at hsnapshot
    exact hsnapshot

namespace Episode

/-- The checkpoint at which an episode stops. -/
def stop (next : Option Nat × Walk) : Checkpoint :=
  { tuple := next.2.tuple
    joinIndex := match next.1 with
      | some pos => pos
      | none => -1
    finished := next.1.isNone }

variable {e : Episode} {p : Planner}

theorem fits_of_isSettled
    (hcardinality : ∀ table < e.task.query.nrTables,
      e.cardinality table = e.task.query.cardinality table) {worker : Nat} {c : Checkpoint}
    (hc : c.IsSettled e.task.query found workers worker e.order) (cursors : Array Cursor) :
    e.Fits ⟨c.tuple, cursors, #[], 0⟩ :=
  ⟨hc.size, fun table ht => hcardinality table ht ▸ hc.row_le table ht⟩

/-- **The checkpoint at which an episode stops is settled** by what was found before and what the
episode has emitted. -/
theorem isSettled_stop (h : e.IsWellFormed p) (hmasks : e.task.HasExactMasks) {c : Checkpoint}
    (hc : c.IsSettled e.task.query found e.workers e.worker e.order)
    (hsnapshot : e.snapshot.IsSettled e.task.query found) (cursors : Array Cursor)
    (hsub : ∀ tuple, found tuple → found' tuple)
    (hemitted : ∀ x ∈ (e.run c.tuple cursors).2.emitted, found' x) :
    (stop (e.run c.tuple cursors)).IsSettled e.task.query found' e.workers e.worker e.order := by
  have ht := run_trace h (fits_of_isSettled h.cardinality_eq hc cursors)
  refine ⟨ht.fits.size, fun table htable => ?_, fun tuple hr hbefore => ?_⟩
  · rw [← h.cardinality_eq table htable]
    exact ht.fits.row_le table htable
  · by_cases hlt : e.order.rowsOf tuple < e.order.rowsOf c.tuple
    · -- Results before the start have been found before.
      exact hsub tuple (hc.found tuple hr (Or.inr hlt))
    by_cases hcovered : ∃ pos < e.task.query.nrTables,
        e.snapshot.covers (e.tableAt pos) (tuple.row (e.tableAt pos)) = true
    · -- Results that the loops skip have been found when the snapshot was taken.
      obtain ⟨pos, hpos, hcovers⟩ := hcovered
      exact hsub tuple (hsnapshot tuple hr.1 _ (h.tableAt_lt hpos) hcovers)
    · have htarget := isTarget_of_isResult h hmasks hr.1 hr.2 fun pos hpos =>
        Bool.eq_false_iff.2 fun hcovers => hcovered ⟨pos, hpos, hcovers⟩
      rcases ht.complete tuple htarget (not_lt.1 hlt) with hmem | ⟨pos, hpos, hle⟩
      · exact hemitted tuple hmem
      · -- The loops have not come to the result, so it does not lie before the stop.
        rcases hbefore with hfinished | hlt'
        · unfold stop at hfinished
          rw [hpos] at hfinished
          exact absurd hfinished (by simp)
        · exact absurd hlt' (not_lt.2 hle)

end Episode

/-! ### The two halves of an episode -/

namespace Worker

variable {w : Worker} {task : Task} {progress : Progress} {order : JoinOrder}

/-- An episode that has something to do goes on from what the worker remembers. -/
theorem begin?_eq_ok {c : Checkpoint} (h : w.begin? task progress order = .ok c) :
    task.hasEmptyTable = false ∧ c = w.memory.continueFrom progress order ∧ c.finished = false ∧
      progress.isShareFinished order.leftmost w.number = false := by
  unfold begin? at h
  split at h
  · exact absurd h (by simp)
  · rename_i hempty
    simp only at h
    split at h
    · exact absurd h (by simp)
    · rename_i hdone
      rw [Bool.or_eq_true, not_or, Bool.not_eq_true, Bool.not_eq_true] at hempty hdone
      have hc := Except.ok.inj h
      exact ⟨hempty.2, hc.symm, hc ▸ hdone.1, hdone.2⟩

/-- A worker that has run nothing goes on from the start, unless its share is finished. -/
theorem begin?_start {number : Nat} (horder : order.isEmpty = false)
    (hempty : task.hasEmptyTable = false)
    (hshare : progress.isShareFinished order.leftmost number = false) :
    (start task number).begin? task progress order = .ok (.start progress.nrTables) := by
  have hcontinue : (start task number).memory.continueFrom progress order =
      .start progress.nrTables := by
    simp [start, Memory.start, Memory.continueFrom, Memory.checkpointOn?]
  unfold begin?
  rw [horder, hempty, hcontinue, show (start task number).number = number from rfl, hshare]
  rfl

/-- An episode that has nothing to do reports that the order is exhausted: some table is empty, or
the worker has nothing left of its share. -/
theorem begin?_eq_error {outcome : Outcome} (h : w.begin? task progress order = .error outcome) :
    outcome.exhausted = true ∧ outcome.nrResults = 0 ∧
      (order.isEmpty = true ∨ task.hasEmptyTable = true ∨
        (w.memory.continueFrom progress order).finished = true ∨
        progress.isShareFinished order.leftmost w.number = true) := by
  unfold begin? at h
  split at h
  · rename_i hempty
    rw [Bool.or_eq_true] at hempty
    rw [← Except.error.inj h]
    exact ⟨rfl, rfl, hempty.imp id Or.inl⟩
  · simp only at h
    split at h
    · rename_i hdone
      rw [Bool.or_eq_true] at hdone
      rw [← Except.error.inj h]
      exact ⟨rfl, rfl, Or.inr (Or.inr hdone)⟩
    · exact absurd h (by simp)

theorem isSettled_of_begin? {c : Checkpoint} (hq : 0 < q.nrTables)
    (hw : w.IsSettled q found workers) (hprogress : progress.IsFor q workers)
    (ho : order.IsPermutation q.nrTables) (h : w.begin? task progress order = .ok c) :
    c.IsSettled q found workers w.number order := by
  obtain ⟨-, rfl, -⟩ := begin?_eq_ok h
  rw [← hw.worker_eq]
  exact hw.memory.continueFrom hprogress ho hq

section Finish

variable {e : Episode} {c : Checkpoint}

theorem finish_memory (w : Worker) (e : Episode) (progress : Progress) (c : Checkpoint) :
    (w.finish e progress c).2.1.memory =
      w.memory.record e.order (Episode.stop (e.run c.tuple w.cursors)) := rfl

theorem finish_results (w : Worker) (e : Episode) (progress : Progress) (c : Checkpoint) :
    (w.finish e progress c).2.1.results =
      (e.run c.tuple w.cursors).2.emitted.foldl (fun results tuple => results.insert tuple)
        w.results := rfl

theorem finish_progress (w : Worker) (e : Episode) (progress : Progress) (c : Checkpoint) :
    (w.finish e progress c).2.2 =
      (progress.publish e.order.leftmost w.memory.worker
        (if (Episode.stop (e.run c.tuple w.cursors)).finished then
          progress.cardinality e.order.leftmost
        else (e.run c.tuple w.cursors).2.tuple.row e.order.leftmost)).2 := rfl

theorem finish_outcome (w : Worker) (e : Episode) (progress : Progress) (c : Checkpoint) :
    (w.finish e progress c).1.exhausted = (e.run c.tuple w.cursors).1.isNone ∧
      (w.finish e progress c).1.nrResults = (e.run c.tuple w.cursors).2.emitted.size ∧
      (w.finish e progress c).1.steps = (e.run c.tuple w.cursors).2.steps := ⟨rfl, rfl, rfl⟩

theorem mem_foldl_insert (tuples : List Tuple) (results : Std.HashSet Tuple) (x : Tuple) :
    x ∈ tuples.foldl (fun results tuple => results.insert tuple) results ↔
      x ∈ results ∨ x ∈ tuples := by
  induction tuples generalizing results with
  | nil => simp
  | cons tuple tuples ih =>
    rw [List.foldl_cons, ih, Std.HashSet.mem_insert, List.mem_cons, beq_iff_eq]
    constructor
    · rintro ((rfl | h) | h)
      · exact Or.inr (Or.inl rfl)
      · exact Or.inl h
      · exact Or.inr (Or.inr h)
    · rintro (h | rfl | h)
      · exact Or.inl (Or.inr h)
      · exact Or.inl (Or.inl rfl)
      · exact Or.inr h

/-- **An episode adds what it emits to the results of its worker.** -/
theorem mem_finish_results {x : Tuple} :
    x ∈ (w.finish e progress c).2.1.results ↔
      x ∈ w.results ∨ x ∈ (e.run c.tuple w.cursors).2.emitted := by
  rw [finish_results, ← Array.foldl_toList, mem_foldl_insert, Array.mem_toList_iff]

theorem finish_isFor (h : e.IsAscending) (hprogress : progress.IsFor e.task.query e.workers)
    (hw : w.number < e.workers) (hworker : w.memory.worker = w.number) :
    (w.finish e progress c).2.2.IsFor e.task.query e.workers := by
  rw [finish_progress, hworker]
  exact hprogress.publish (h.tableAt_lt h.nrTables_pos) hw _

variable {p : Planner} (h : e.IsWellFormed p) (hmasks : e.task.HasExactMasks)
  (hnumber : e.worker = w.number)
  (hw : w.IsSettled e.task.query found e.workers)
  (hprogress : progress.IsFor e.task.query e.workers)
  (hc : c.IsSettled e.task.query found e.workers w.number e.order)
  (hsnapshot : e.snapshot.IsSettled e.task.query found)
  (hsub : ∀ tuple, found tuple → found' tuple)
  (hemitted : ∀ x ∈ (e.run c.tuple w.cursors).2.emitted, found' x)

include h hmasks hnumber hw hc hsnapshot hsub hemitted

/-- **After an episode all checkpoints of its worker are settled.** -/
theorem finish_isSettled : (w.finish e progress c).2.1.IsSettled e.task.query found' e.workers := by
  have hstop := Episode.isSettled_stop h hmasks (hnumber ▸ hc) hsnapshot w.cursors hsub hemitted
  rw [hnumber, ← hw.worker_eq] at hstop
  refine ⟨hw.number_lt, ?_, ?_⟩
  · rw [finish_memory, Memory.record_worker]
    exact hw.worker_eq
  · rw [finish_memory]
    exact (hw.memory.mono hsub).record h.isPermutation h.nrTables_pos hstop

include hprogress

/-- **After an episode all offsets are settled.** -/
theorem finish_progress_isSettled (hsettled : progress.IsSettled e.task.query found) :
    (w.finish e progress c).2.2.IsSettled e.task.query found' := by
  have hstop := Episode.isSettled_stop h hmasks (hnumber ▸ hc) hsnapshot w.cursors hsub hemitted
  rw [hnumber] at hstop
  rw [finish_progress, hw.worker_eq]
  refine (Progress.IsSettled.mono hsub hsettled).publish hprogress
    (h.tableAt_lt h.nrTables_pos) hw.number_lt fun tuple hr hlt => hstop.found tuple hr ?_
  split at hlt
  · rename_i hfinished
    exact Or.inl hfinished
  · refine Or.inr (JoinOrder.rowsOf_lt_iff.2 ⟨0, ?_, e.order.agree_zero _ _, hlt⟩)
    exact h.size_order ▸ h.nrTables_pos

end Finish

end Worker

end AdaptiveJoin
