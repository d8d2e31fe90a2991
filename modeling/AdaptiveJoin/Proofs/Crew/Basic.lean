import AdaptiveJoin.Proofs.Episode.Worker

/-!
# Workers that join together

A crew consists of the workers of a join and of what they share.  It executes episodes of single
workers, in any order and of any join orders.

`Crew.IsSound` is the invariant of all its runs: what has been found are results, and offsets and
checkpoints are settled by what has been found.  It holds at the start (`Crew.isSound_start`) and is
kept when a worker finishes an episode (`Crew.IsSound.finish`), whatever settled snapshot the
episode has used.
-/

namespace AdaptiveJoin

/-- The workers of a join and what they share. -/
structure Crew where
  shared : Shared
  workers : Array Worker

namespace Crew

/-- Workers that have run nothing. -/
def start (task : Task) (catalog : Catalog) (workers : Nat) : Crew :=
  let shared := Shared.start task catalog workers
  ⟨shared, (Array.range shared.progress.workers).map (Worker.start task)⟩

/-- Some worker has found a tuple. -/
def Found (c : Crew) (tuple : Tuple) : Prop :=
  ∃ (number : Nat) (w : Worker), c.workers[number]? = some w ∧ tuple ∈ w.results

/-- The crew after a worker has finished an episode; `plans` are the plans made by then. -/
def finish (c : Crew) (number : Nat) (w : Worker) (plans : PlanCache) (e : Episode)
    (checkpoint : Checkpoint) : Crew :=
  { shared := ⟨plans, (w.finish e c.shared.progress checkpoint).2.2⟩
    workers := c.workers.setIfInBounds number (w.finish e c.shared.progress checkpoint).2.1 }

/-- The invariant of a crew. -/
structure IsSound (c : Crew) (p : Planner) (task : Task) (workers : Nat) : Prop where
  shared : c.shared.IsSound p task workers
  number : ∀ (number : Nat) (w : Worker), c.workers[number]? = some w → w.number = number
  isResult : ∀ tuple, c.Found tuple → task.query.IsResult tuple
  progress : c.shared.progress.IsSettled task.query c.Found
  worker : ∀ (number : Nat) (w : Worker), c.workers[number]? = some w →
    w.IsSettled task.query c.Found workers

variable {c : Crew} {p : Planner} {task : Task} {workers : Nat}

/-! ### Finishing an episode -/

section Finish

variable {number : Nat} {w : Worker} {plans : PlanCache} {e : Episode} {checkpoint : Checkpoint}

/-- A worker after an episode is the one that has run, or it has not changed. -/
theorem getElem?_workers_finish {other : Nat} {w' : Worker}
    (hw' : (c.finish number w plans e checkpoint).workers[other]? = some w') :
    (other = number ∧ w' = (w.finish e c.shared.progress checkpoint).2.1) ∨
      c.workers[other]? = some w' := by
  rw [finish, Array.getElem?_setIfInBounds] at hw'
  split at hw'
  · rename_i heq
    split at hw'
    · exact Or.inl ⟨heq.symm, (Option.some.inj hw').symm⟩
    · exact absurd hw' (by simp)
  · exact Or.inr hw'

/-- What has been found after an episode: what was found before and what the episode has emitted. -/
theorem found_finish (hw : c.workers[number]? = some w) {tuple : Tuple} :
    (c.finish number w plans e checkpoint).Found tuple ↔
      c.Found tuple ∨ tuple ∈ (e.run checkpoint.tuple w.cursors).2.emitted := by
  have hlt : number < c.workers.size := (Array.getElem?_eq_some_iff.1 hw).1
  constructor
  · rintro ⟨number', w', hw', hmem⟩
    simp only [finish, Array.getElem?_setIfInBounds] at hw'
    -- Only the worker that has run has new results.
    split at hw'
    · rw [Option.some.injEq] at hw'
      rw [← hw', Worker.mem_finish_results] at hmem
      exact hmem.imp (fun h => ⟨number, w, hw, h⟩) id
    · exact Or.inl ⟨number', w', hw', hmem⟩
  · -- What a worker has found it keeps.
    have hself : (c.finish number w plans e checkpoint).workers[number]? =
        some (w.finish e c.shared.progress checkpoint).2.1 := by
      simp [finish, hlt]
    rintro (⟨number', w', hw', hmem⟩ | hmem)
    · by_cases heq : number = number'
      · subst heq
        obtain rfl := Option.some.inj (hw.symm.trans hw')
        exact ⟨number, _, hself, Worker.mem_finish_results.2 (Or.inl hmem)⟩
      · refine ⟨number', w', ?_, hmem⟩
        unfold finish
        rw [Array.getElem?_setIfInBounds, if_neg heq]
        exact hw'
    · exact ⟨number, _, hself, Worker.mem_finish_results.2 (Or.inr hmem)⟩

/-- **Finishing an episode that uses a settled checkpoint and a settled snapshot keeps the
invariant.** -/
theorem IsSound.finish (hc : c.IsSound p task workers) (hmasks : task.HasExactMasks)
    (hw : c.workers[number]? = some w) (hplans : plans.planner = p) (hfaithful : plans.IsFaithful)
    (h : e.IsWellFormed p) (htask : e.task = task) (hworkers : e.workers = workers)
    (hworker : e.worker = w.number)
    (hcheckpoint : checkpoint.IsSettled task.query c.Found workers w.number e.order)
    (hsnapshot : e.snapshot.IsSettled task.query c.Found) :
    (c.finish number w plans e checkpoint).IsSound p task workers := by
  subst htask hworkers
  set c' := c.finish number w plans e checkpoint with hc'
  have hlt : number < c.workers.size := (Array.getElem?_eq_some_iff.1 hw).1
  have hset := hc.worker number w hw
  have hsub : ∀ tuple, c.Found tuple → c'.Found tuple :=
    fun tuple h => (found_finish hw).2 (Or.inl h)
  have hemitted : ∀ x ∈ (e.run checkpoint.tuple w.cursors).2.emitted, c'.Found x :=
    fun x hx => (found_finish hw).2 (Or.inr hx)
  have hprogress : c.shared.progress.IsFor e.task.query e.workers := hc.shared.isFor
  -- Everything found before is still found, so what was settled stays settled.
  refine ⟨⟨hplans, hfaithful, ?_⟩, fun number' w' hw' => ?_, fun tuple hfound => ?_, ?_,
    fun number' w' hw' => ?_⟩
  · exact Worker.finish_isFor h.isAscending hprogress hset.number_lt hset.worker_eq
  · rcases getElem?_workers_finish hw' with ⟨rfl, rfl⟩ | hw'
    · exact hc.number number' w hw
    · exact hc.number number' w' hw'
  · rcases (found_finish hw).1 hfound with hfound | hmem
    · exact hc.isResult tuple hfound
    · have ht := Episode.run_trace h
        (Episode.fits_of_isSettled h.cardinality_eq hcheckpoint w.cursors)
      exact (ht.isAccepted tuple hmem).isResult h hmasks
  · exact Worker.finish_progress_isSettled h hmasks hworker hset hprogress hcheckpoint hsnapshot
      hsub hemitted hc.progress
  · rcases getElem?_workers_finish hw' with ⟨rfl, rfl⟩ | hw'
    · exact Worker.finish_isSettled h hmasks hworker hset hcheckpoint hsnapshot hsub hemitted
    · exact (hc.worker number' w' hw').mono hsub

end Finish

/-! ### The start -/

theorem cardinality_start (q : Query) (workers : Nat) (hq : q.IsValid) (table : Nat) :
    (Progress.start q.rowCounts workers).cardinality table = q.cardinality table := by
  have hlt := hq.cardinality_lt table
  unfold Query.cardinality at hlt
  show q.rowCounts[table]?.getD 0 = _
  unfold Query.rowCounts
  rw [Array.getElem?_map, Query.cardinality]
  cases ht : q.tables[table]? with
  | none => rfl
  | some t =>
    rw [ht, Option.map_some, Option.getD_some] at hlt
    simp only [Option.map_some, Option.getD_some]
    omega

theorem isFor_start (q : Query) (workers : Nat) (hq : q.IsValid) :
    (Progress.start q.rowCounts workers).IsFor q (Progress.start q.rowCounts workers).workers where
  toIsConsistent := Progress.isConsistent_start _ _
  workers_eq := rfl
  nrTables_eq := by simp [Progress.nrTables, Progress.start, Query.rowCounts, Query.nrTables]
  cardinality_eq := cardinality_start q workers hq

/-- The planner of a join. -/
def planner (task : Task) (catalog : Catalog) (workers : Nat) : Planner :=
  (Shared.start task catalog workers).plans.planner

/-- **The planner of a valid query serves its join** if its lookups are complete. -/
theorem serves_planner {q : Query} (hvalid : q.validate = .ok ()) (hbuilt : q.Built)
    {masks : Array (Option RowMask)} {config : Config} {catalog : Catalog} {workers : Nat}
    (hlookups : (planner (.ofQuery q masks config) catalog workers).HasCompleteLookups) :
    (planner (.ofQuery q masks config) catalog workers).Serves (.ofQuery q masks config)
      (Progress.start q.rowCounts workers).workers where
  nrTables_pos := (Query.isValid_of_validate hvalid).nrTables_pos
  nrTables_le := (Query.isValid_of_validate hvalid).nrTables_le
  explains := hbuilt.explains
  tables_ne_nil := (Query.isValid_of_validate hvalid).tables_ne_nil
  query_eq := rfl
  masked_eq := rfl
  partitioned_eq := rfl
  hasCompleteLookups := hlookups

/-- The indexes of a query of small tables make complete lookups. -/
theorem hasCompleteLookups_planner {q : Query} (hbuilt : q.Built) (hsmall : q.HasSmallTables)
    (hexact : q.HasExactConstants) {catalog : Catalog} (hcatalog : catalog.IsBuiltFor q)
    (masks : Array (Option RowMask)) (config : Config) (workers : Nat) :
    (planner (.ofQuery q masks config) catalog workers).HasCompleteLookups :=
  Planner.hasCompleteLookups hbuilt.explains hsmall hexact hcatalog

theorem not_found_start (task : Task) (catalog : Catalog) (workers : Nat) (tuple : Tuple) :
    ¬(start task catalog workers).Found tuple := by
  rintro ⟨number, w, hw, hmem⟩
  simp only [start, Array.getElem?_map, Option.map_eq_some_iff] at hw
  obtain ⟨number', -, rfl⟩ := hw
  exact absurd hmem (by simp [Worker.start])

theorem getElem?_start_workers (task : Task) (catalog : Catalog) (workers : Nat) {number : Nat}
    {w : Worker} (hw : (start task catalog workers).workers[number]? = some w) :
    number < (Progress.start task.query.rowCounts workers).workers ∧ w = .start task number := by
  simp only [start, Array.getElem?_map, Option.map_eq_some_iff, Array.getElem?_range] at hw
  obtain ⟨number', hlt, rfl⟩ := hw
  split at hlt
  · rename_i hnumber
    obtain rfl := Option.some.inj hlt
    exact ⟨hnumber, rfl⟩
  · exact absurd hlt (by simp)

/-- **A crew that has run nothing is sound.** -/
theorem isSound_start {task : Task} {catalog : Catalog} {workers : Nat} (hq : task.query.IsValid) :
    (start task catalog workers).IsSound (planner task catalog workers) task
      (Progress.start task.query.rowCounts workers).workers where
  shared := ⟨rfl, PlanCache.isFaithful_empty _, isFor_start task.query workers hq⟩
  number := fun number w hw => by rw [(getElem?_start_workers task catalog workers hw).2]; rfl
  isResult := fun tuple hfound => absurd hfound (not_found_start task catalog workers tuple)
  progress := Progress.isSettled_start _ (cardinality_start task.query workers hq)
  worker := fun number w hw => by
    obtain ⟨hlt, rfl⟩ := getElem?_start_workers task catalog workers hw
    exact Worker.isSettled_start task hlt

/-- Every number below the number of workers names a worker. -/
theorem getElem?_start_workers_of_lt (task : Task) (catalog : Catalog) {workers number : Nat}
    (h : number < (Progress.start task.query.rowCounts workers).workers) :
    (start task catalog workers).workers[number]? = some (.start task number) := by
  simp [start, Shared.start, h]

/-! ### Complete results -/

/-- **Once some table is finished, exactly the results have been found.** -/
theorem IsSound.found_iff_of_isFinished (hc : c.IsSound p task workers)
    (hfinished : c.shared.progress.isFinished = true) {tuple : Tuple} :
    c.Found tuple ↔ task.query.IsResult tuple := by
  refine ⟨hc.isResult tuple, fun hr => ?_⟩
  have hfor := hc.shared.isFor
  obtain ⟨table, ht, hall⟩ := hfor.isFinished_iff.1 hfinished
  have ht' : table < task.query.nrTables := hfor.nrTables_eq ▸ ht
  apply hc.progress tuple hr table ht'
  rw [hall _ (Nat.mod_lt _ hfor.workers_pos), hfor.cardinality_eq]
  exact hr.1.2 table ht'

end Crew

/-! ### A sample crew -/

/-- The masks of the sample query: the first table is filtered by its own predicates. -/
def Query.sampleMasks : Array (Option RowMask) := #[some #[true, true, false, false, false], none]

/-- The masks of the sample query are exact, whatever the configuration is. -/
theorem Task.hasExactMasks_sample (config : Config) :
    (Task.ofQuery .sample Query.sampleMasks config).HasExactMasks := by
  intro table mask hmask tuple htuple
  obtain ⟨htable, hmask⟩ := mask?_ofQuery hmask
  have hother : ∀ table < 2, Query.sampleMasks[table]?.join ≠ none → table = 0 := by decide
  obtain rfl := hother table htable (by rw [hmask]; exact nofun)
  obtain rfl := Option.some.inj hmask
  have hrow : tuple.row 0 < 5 := htuple.2 0 (show 0 < 2 by decide)
  have hall : ∀ row < 5, (#[true, true, false, false, false][row]?.getD false = true ↔
      ∀ id ∈ [1, 2], Query.sample.holds id #[row] = true) := by
    decide
  -- The two predicates look at the row of the first table only.
  have hsame : ∀ id ∈ [1, 2], Query.sample.holds id tuple =
      Query.sample.holds id #[tuple.row 0] := by
    intro id hid
    rcases List.mem_pair.1 hid with rfl | rfl <;> rfl
  exact (hall _ hrow).trans (forall₂_congr fun id hid => by rw [← hsame id hid]; rfl)

/-- The task of the sample query, which is finished by long episodes. -/
def Task.sample : Task := .ofQuery .sample Query.sampleMasks {}

/-- The task of the sample query with episodes of one step. -/
def Task.stepwise : Task := .ofQuery .sample Query.sampleMasks { budget := 1 }

/-- The order that starts with the first table. -/
def JoinOrder.sample : JoinOrder := ⟨#[0, 1]⟩

/-- The order that starts with the second table. -/
def JoinOrder.reversed : JoinOrder := ⟨#[1, 0]⟩

theorem JoinOrder.isPermutation_sample : JoinOrder.sample.IsPermutation Query.sample.nrTables := by
  decide

theorem JoinOrder.isPermutation_reversed :
    JoinOrder.reversed.IsPermutation Query.sample.nrTables := by
  decide

namespace Crew

/-- Two workers and the sample query, without indexes. -/
def sample : Crew := start .sample .empty 2

theorem workers_sample {number : Nat} (h : number < 2) :
    sample.workers[number]? = some (.start .sample number) :=
  getElem?_start_workers_of_lt .sample .empty h

/-- Each of the workers can begin with each of the orders. -/
theorem begin?_sample {number : Nat} (h : number < 2) {order : JoinOrder}
    (horder : order ∈ [JoinOrder.sample, JoinOrder.reversed]) :
    (Worker.start .sample number).begin? .sample sample.shared.progress order =
      .ok (.start 2) := by
  have hshares : ∀ order ∈ [JoinOrder.sample, JoinOrder.reversed], ∀ number < 2,
      order.isEmpty = false ∧
        sample.shared.progress.isShareFinished order.leftmost number = false := by
    decide +kernel
  obtain ⟨hnonempty, hshare⟩ := hshares order horder number h
  have hempty : Task.sample.hasEmptyTable = false := by decide +kernel
  have hsize : sample.shared.progress.nrTables = 2 := by decide +kernel
  rw [Worker.begin?_start hnonempty hempty hshare, hsize]

/-- The plans of both orders run through the tables and check the equi-join in the end: the first
table has been filtered. -/
theorem plan_sample {order : JoinOrder}
    (horder : order ∈ [JoinOrder.sample, JoinOrder.reversed]) :
    (planner .sample .empty 2).plan order =
      ⟨order, #[⟨order.tableAt 0, none, []⟩, ⟨order.tableAt 1, none, [0]⟩]⟩ := by
  have hempty : (planner .sample .empty 2).catalog = .empty := rfl
  -- Nothing is indexed, and the only predicate is checked once both tables are joined.
  have hchecks : ∀ order ∈ [JoinOrder.sample, JoinOrder.reversed], ∀ pos < 2,
      (List.range Query.sample.predicates.size).filter (fun id =>
        (Query.sample.predicates[id]?.map ((planner .sample .empty 2).isChecked
          (order.joined pos) (order.tableAt pos))).getD false) = if pos = 1 then [0] else [] := by
    decide +kernel
  have hposition (pos : Nat) (hpos : pos < 2) :
      (planner .sample .empty 2).position (order.joined pos) (order.tableAt pos) =
        ⟨order.tableAt pos, none, if pos = 1 then [0] else []⟩ := by
    rw [Planner.position_of_empty hempty]
    exact congrArg _ (hchecks order horder pos hpos)
  have hplan : (planner .sample .empty 2).plan order = ⟨order,
      #[(planner .sample .empty 2).position (order.joined 0) (order.tableAt 0),
        (planner .sample .empty 2).position (order.joined 1) (order.tableAt 1)]⟩ := by
    rcases List.mem_pair.1 horder with rfl | rfl <;> rfl
  rw [hplan, hposition 0 (by decide), hposition 1 (by decide)]
  rfl

end Crew

end AdaptiveJoin
