import Mathlib.Logic.Relation
import AdaptiveJoin.Proofs.Crew.Basic

/-!
# Overlapping episodes

Between the beginning and the end of an episode other workers may begin and end episodes, so a
worker may use a snapshot that is long out of date, and each of whose offsets has been read at a
different moment.  `Overlap.Step` describes these runs: an episode begins by reading the checkpoint
to go on from, and ends by running the loops with some snapshot of the past.  An episode that has
nothing to do begins and ends without a trace.

Offsets that were settled once are settled for good, so any mixture of them makes a settled snapshot
(`Overlap.IsSound.finish`), and nothing is ever lost (`Overlap.offsets_settled`).
-/

namespace AdaptiveJoin

/-- An episode that has begun: its order and the checkpoint from which it goes on. -/
structure Begun where
  order : JoinOrder
  checkpoint : Checkpoint

/-- A crew whose episodes overlap. -/
structure Overlap where
  crew : Crew
  /-- The episodes that have begun and not ended, by the number of the worker. -/
  begun : Nat → Option Begun
  /-- The progress at all moments up to now. -/
  past : List Progress

namespace Overlap

def start (task : Task) (catalog : Catalog) (workers : Nat) : Overlap :=
  let crew := Crew.start task catalog workers
  ⟨crew, fun _ => none, [crew.shared.progress]⟩

/-- A worker reads the checkpoint from which its episode goes on. -/
def begin (s : Overlap) (number : Nat) (b : Begun) : Overlap :=
  { s with begun := fun i => if i = number then some b else s.begun i }

/-- A worker ends its episode, with a snapshot of some offsets. -/
def finish (s : Overlap) (task : Task) (number : Nat) (w : Worker) (b : Begun)
    (offsets : Array Nat) : Overlap :=
  let progress := s.crew.shared.progress
  let (plan, plans) := s.crew.shared.plans.plan b.order
  let snapshot := Snapshot.ofOffsets progress.workers progress.nrTables offsets
  let crew := s.crew.finish number w plans (w.episode task progress plan snapshot) b.checkpoint
  { crew := crew
    begun := fun i => if i = number then none else s.begun i
    past := crew.shared.progress :: s.past }

/-- One half of an episode of some worker.  Every offset of the snapshot used has been read at some
moment before the end. -/
inductive Step (task : Task) : Overlap → Overlap → Prop
  | begin {s : Overlap} {number : Nat} {w : Worker} {order : JoinOrder} {checkpoint : Checkpoint}
      (hw : s.crew.workers[number]? = some w) (hidle : s.begun number = none)
      (horder : order.IsPermutation task.query.nrTables)
      (hbegin : w.begin? task s.crew.shared.progress order = .ok checkpoint) :
      Step task s (s.begin number ⟨order, checkpoint⟩)
  | finish {s : Overlap} {number : Nat} {w : Worker} {b : Begun} {offsets : Array Nat}
      (hw : s.crew.workers[number]? = some w) (hbegun : s.begun number = some b)
      (hoffsets : ∀ table < task.query.nrTables, ∀ share < s.crew.shared.progress.workers,
        ∃ p ∈ s.past, offsets[s.crew.shared.progress.slot table share]?.getD 0 =
          p.offset table share) :
      Step task s (s.finish task number w b offsets)

/-- The invariant of overlapping episodes. -/
structure IsSound (s : Overlap) (p : Planner) (task : Task) (workers : Nat) : Prop where
  crew : s.crew.IsSound p task workers
  begun : ∀ number b, s.begun number = some b → b.order.IsPermutation task.query.nrTables ∧
    b.checkpoint.IsSettled task.query s.crew.Found workers number b.order
  past : ∀ progress ∈ s.past, progress.workers = workers ∧
    progress.IsSettled task.query s.crew.Found

variable {s : Overlap} {p : Planner} {task : Task} {workers : Nat}

/-- What holds of all episodes that have begun, and of one more. -/
theorem forall_begun_begin {P : Nat → Begun → Prop}
    (h : ∀ number b, s.begun number = some b → P number b) {number : Nat} {b : Begun}
    (hb : P number b) :
    ∀ number' b', (s.begin number b).begun number' = some b' → P number' b' := by
  intro number' b' hb'
  simp only [begin] at hb'
  split at hb'
  · rename_i heq
    obtain rfl := Option.some.inj hb'
    exact heq ▸ hb
  · exact h number' b' hb'

/-- An episode that ends leaves the other ones that have begun alone. -/
theorem forall_begun_finish {P : Nat → Begun → Prop}
    (h : ∀ number b, s.begun number = some b → P number b) {number : Nat} {w : Worker} {b : Begun}
    {offsets : Array Nat} : ∀ number' b',
      (s.finish task number w b offsets).begun number' = some b' → P number' b' := by
  intro number' b' hb'
  simp only [finish] at hb'
  split at hb'
  · exact absurd hb' (by simp)
  · exact h number' b' hb'

theorem isSound_start {catalog : Catalog} {workers : Nat} (hq : task.query.IsValid) :
    (start task catalog workers).IsSound (Crew.planner task catalog workers) task
      (Progress.start task.query.rowCounts workers).workers := by
  have hcrew : (Crew.start task catalog workers).IsSound _ _ _ := Crew.isSound_start hq
  refine ⟨hcrew, fun number b hb => absurd hb (by simp [start]), fun progress hmem => ?_⟩
  obtain rfl := List.mem_singleton.1 hmem
  exact ⟨rfl, hcrew.progress⟩

/-- Beginning an episode keeps the invariant. -/
theorem IsSound.begin (hp : p.Serves task workers) (hs : s.IsSound p task workers) {number : Nat}
    {w : Worker} {order : JoinOrder} {checkpoint : Checkpoint}
    (hw : s.crew.workers[number]? = some w) (horder : order.IsPermutation task.query.nrTables)
    (hbegin : w.begin? task s.crew.shared.progress order = .ok checkpoint) :
    (s.begin number ⟨order, checkpoint⟩).IsSound p task workers := by
  have hsettled := Worker.isSettled_of_begin? hp.nrTables_pos (hs.crew.worker number w hw)
    hs.crew.shared.isFor horder hbegin
  rw [hs.crew.number number w hw] at hsettled
  exact ⟨hs.crew, forall_begun_begin hs.begun ⟨horder, hsettled⟩, hs.past⟩

/-- **Ending an episode keeps the invariant**, whenever the offsets of its snapshot were read. -/
theorem IsSound.finish (hp : p.Serves task workers) (hmasks : task.HasExactMasks)
    (hs : s.IsSound p task workers) {number : Nat} {w : Worker} {b : Begun} {offsets : Array Nat}
    (hw : s.crew.workers[number]? = some w) (hbegun : s.begun number = some b)
    (hoffsets : ∀ table < task.query.nrTables, ∀ share < s.crew.shared.progress.workers,
      ∃ p ∈ s.past, offsets[s.crew.shared.progress.slot table share]?.getD 0 =
        p.offset table share) : (s.finish task number w b offsets).IsSound p task workers := by
  have hfor := hs.crew.shared.isFor
  have hfaithful := hs.crew.shared.isFaithful
  have hplan := PlanCache.plan_eq hfaithful b.order
  have hnumber := hs.crew.number number w hw
  obtain ⟨horder, hcheckpoint⟩ := hs.begun number b hbegun
  have hwell : (w.episode task s.crew.shared.progress (s.crew.shared.plans.plan b.order).1
      (.ofOffsets s.crew.shared.progress.workers s.crew.shared.progress.nrTables
        offsets)).IsWellFormed p :=
    Worker.isWellFormed_episode hp hfor horder (hs.crew.worker number w hw).number_lt
      (by rw [hplan, hs.crew.shared.planner_eq])
      ⟨offsets, by rw [hfor.workers_eq, hfor.nrTables_eq]⟩
  have hsnapshot : (Snapshot.ofOffsets s.crew.shared.progress.workers
      s.crew.shared.progress.nrTables offsets).IsSettled task.query s.crew.Found := by
    -- Every offset was settled when it was read, and what had been found then is still found.
    refine Snapshot.isSettled_ofOffsets hfor.workers_pos (fun table ht share hshare => ?_) _
    obtain ⟨progress, hmem, heq⟩ := hoffsets table ht share hshare
    obtain ⟨hworkers, hsettled⟩ := hs.past progress hmem
    exact ⟨progress, hworkers.trans hfor.workers_eq.symm, hsettled, heq.le⟩
  have hcrew : (s.finish task number w b offsets).crew.IsSound p task workers := by
    refine hs.crew.finish hmasks hw ?_ (hfaithful.plan b.order) hwell rfl hfor.workers_eq rfl ?_
      hsnapshot
    · exact (PlanCache.plan_planner _ _).trans hs.crew.shared.planner_eq
    · -- The plan is one of the order of the episode, so its checkpoint is the one settled before.
      have horder' : (s.crew.shared.plans.plan b.order).1.order = b.order := by
        rw [hplan]
        rfl
      show b.checkpoint.IsSettled _ _ _ _ (s.crew.shared.plans.plan b.order).1.order
      rw [horder', hnumber]
      exact hcheckpoint
  have hsub : ∀ tuple, s.crew.Found tuple → (s.finish task number w b offsets).crew.Found tuple :=
    fun tuple h => (Crew.found_finish hw).2 (Or.inl h)
  refine ⟨hcrew, forall_begun_finish fun number' b' hb' => ?_, fun progress hmem => ?_⟩
  · obtain ⟨horder', hsettled⟩ := hs.begun number' b' hb'
    exact ⟨horder', hsettled.mono hsub⟩
  · rcases List.mem_cons.1 hmem with rfl | hmem
    · exact ⟨hcrew.shared.isFor.workers_eq, hcrew.progress⟩
    · obtain ⟨hworkers, hsettled⟩ := hs.past progress hmem
      exact ⟨hworkers, hsettled.mono hsub⟩

theorem IsSound.step (hp : p.Serves task workers) (hmasks : task.HasExactMasks) {s' : Overlap}
    (hs : s.IsSound p task workers) (hstep : Step task s s') : s'.IsSound p task workers := by
  cases hstep with
  | begin hw _ horder hbegin => exact hs.begin hp hw horder hbegin
  | finish hw hbegun hoffsets => exact hs.finish hp hmasks hw hbegun hoffsets

/-- **Stale snapshots lose no result.**  However the halves of the episodes of a valid query
interleave, and however old the offsets are that they use: every result with a row below the offset
of its share has been found by some worker. -/
theorem offsets_settled {q : Query} (hvalid : q.validate = .ok ()) (hbuilt : q.Built)
    {catalog : Catalog} {masks : Array (Option RowMask)} {config : Config} {workers : Nat}
    (hlookups : (Crew.planner (.ofQuery q masks config) catalog workers).HasCompleteLookups)
    (hmasks : (Task.ofQuery q masks config).HasExactMasks) {s : Overlap}
    (hs : Relation.ReflTransGen (Step (.ofQuery q masks config))
      (start (.ofQuery q masks config) catalog workers) s) :
    ∀ table < q.nrTables, ∀ share < s.crew.shared.progress.workers, ∀ tuple, q.IsResult tuple →
      tuple.row table % s.crew.shared.progress.workers = share →
      tuple.row table < s.crew.shared.progress.offset table share →
      ∃ (number : Nat) (w : Worker), s.crew.workers[number]? = some w ∧ tuple ∈ w.results := by
  have hp := Crew.serves_planner hvalid hbuilt hlookups
  -- By induction on the steps, in any order of beginnings and ends.
  have hsound : s.IsSound (Crew.planner (.ofQuery q masks config) catalog workers)
      (.ofQuery q masks config) (Progress.start q.rowCounts workers).workers := by
    induction hs with
    | refl => exact isSound_start (Query.isValid_of_validate hvalid)
    | tail _ hstep ih => exact ih.step hp hmasks hstep
  rintro table ht share - tuple hr rfl hlt
  exact hsound.crew.progress tuple hr table ht hlt

/-! ### A stale snapshot -/

/-- Two workers have begun, one with the second table and one with the first. -/
def sampleBegun : Overlap :=
  ((start .sample .empty 2).begin 0 ⟨.reversed, .start 2⟩).begin 1 ⟨.sample, .start 2⟩

theorem reaches_sampleBegun :
    Relation.ReflTransGen (Step .sample) (start .sample .empty 2) sampleBegun := by
  have hfirst : Step .sample (start .sample .empty 2)
      ((start .sample .empty 2).begin 0 ⟨.reversed, .start 2⟩) :=
    .begin (Crew.workers_sample (by decide)) rfl JoinOrder.isPermutation_reversed
      (Crew.begin?_sample (by decide) (by decide))
  exact .tail (.single hfirst) (.begin (Crew.workers_sample (by decide)) rfl
    JoinOrder.isPermutation_sample (Crew.begin?_sample (by decide) (by decide)))

/-- The offsets that both of them read. -/
def sampleOffsets : Array Nat := Crew.sample.shared.progress.offsets

/-- The first worker has ended. -/
def sampleFirst : Overlap :=
  sampleBegun.finish .sample 0 (.start .sample 0) ⟨.reversed, .start 2⟩ sampleOffsets

/-- The second worker has ended as well, with the offsets from before the end of the first. -/
def sample : Overlap :=
  sampleFirst.finish .sample 1 (.start .sample 1) ⟨.sample, .start 2⟩ sampleOffsets

/-- The first worker has joined its rows of the second table. -/
theorem progress_sampleFirst :
    sampleFirst.crew.shared.progress = (Crew.sample.shared.progress.publish 1 0 3).2 := by
  have hplan : (Crew.sample.shared.plans.plan .reversed).1 = _ :=
    (PlanCache.plan_eq (PlanCache.isFaithful_empty _) .reversed).trans
      (Crew.plan_sample (by decide))
  show ((Worker.start .sample 0).finish ((Worker.start .sample 0).episode .sample
    Crew.sample.shared.progress (Crew.sample.shared.plans.plan .reversed).1 (.ofOffsets
      Crew.sample.shared.progress.workers Crew.sample.shared.progress.nrTables sampleOffsets))
    Crew.sample.shared.progress (.start 2)).2.2 = _
  rw [hplan, Worker.finish_progress]
  exact congrArg (fun offset => (Crew.sample.shared.progress.publish 1 0 offset).2)
    (by decide +kernel)

/-- The second worker has joined its rows of the first table. -/
theorem progress_sample :
    sample.crew.shared.progress = (sampleFirst.crew.shared.progress.publish 0 1 5).2 := by
  have hplan : (sampleFirst.crew.shared.plans.plan .sample).1 = _ :=
    (PlanCache.plan_eq ((PlanCache.isFaithful_empty _).plan .reversed) .sample).trans
      ((congrArg (fun p => p.plan .sample) (PlanCache.plan_planner _ _)).trans
        (Crew.plan_sample (by decide)))
  show ((Worker.start .sample 1).finish ((Worker.start .sample 1).episode .sample
    sampleFirst.crew.shared.progress (sampleFirst.crew.shared.plans.plan .sample).1 (.ofOffsets
      sampleFirst.crew.shared.progress.workers sampleFirst.crew.shared.progress.nrTables
        sampleOffsets)) sampleFirst.crew.shared.progress (.start 2)).2.2 = _
  rw [hplan, Worker.finish_progress, progress_sampleFirst]
  exact congrArg (fun offset =>
    ((Crew.sample.shared.progress.publish 1 0 3).2.publish 0 1 offset).2) (by decide +kernel)

theorem workers_sample : sample.crew.shared.progress.workers = 2 := by
  rw [progress_sample, progress_sampleFirst]
  decide +kernel

/-- Between the two ends the second worker has not changed. -/
theorem getElem?_workers_sampleFirst :
    sampleFirst.crew.workers[1]? = some (.start .sample 1) := by
  show (Crew.sample.workers.setIfInBounds 0 _)[1]? = _
  rw [Array.getElem?_setIfInBounds_ne (by decide)]
  exact Crew.workers_sample (by decide)

theorem reaches_sample : Relation.ReflTransGen (Step .sample) (start .sample .empty 2) sample := by
  have hfirst : Step .sample sampleBegun sampleFirst :=
    .finish (Crew.workers_sample (by decide)) rfl fun table _ share _ =>
      ⟨Crew.sample.shared.progress, List.mem_singleton_self _, rfl⟩
  refine .tail (.tail reaches_sampleBegun hfirst) (.finish getElem?_workers_sampleFirst rfl
    fun table _ share _ => ⟨Crew.sample.shared.progress,
      List.mem_cons_of_mem _ (List.mem_singleton_self _), ?_⟩)
  rw [progress_sampleFirst, Progress.slot, Progress.publish_workers]
  rfl

/-- The offsets of two workers, of which the second has not seen what the first has done. -/
theorem offsets_settled_sample :
    Relation.ReflTransGen (Step .sample) (start .sample .empty 2) sample ∧
      Crew.sample.shared.progress.offset 1 0 < sampleFirst.crew.shared.progress.offset 1 0 ∧
      (∃ (number : Nat) (w : Worker),
        sample.crew.workers[number]? = some w ∧ #[1, 2] ∈ w.results) ∧
      ∃ (number : Nat) (w : Worker),
        sample.crew.workers[number]? = some w ∧ #[0, 2] ∈ w.results := by
  have hlookups : (Crew.planner .sample .empty 2).HasCompleteLookups :=
    Crew.hasCompleteLookups_planner Query.built_sample Query.hasSmallTables_sample
      Query.hasExactConstants_sample (Catalog.isBuiltFor_empty _) Query.sampleMasks {} 2
  have hfound := offsets_settled Query.validate_sample Query.built_sample hlookups
    (Task.hasExactMasks_sample {}) reaches_sample
  have hresult {tuple : Tuple} (h : tuple ∈ [#[0, 0], #[0, 2], #[1, 0], #[1, 2]]) :
      Query.sample.IsResult tuple := by
    rwa [← Query.mem_nestedLoopJoin, Query.nestedLoopJoin_sample]
  rw [workers_sample, progress_sample, progress_sampleFirst] at hfound
  -- By the end of the second worker, the first has moved an offset that the second has read.
  have hstale : Crew.sample.shared.progress.offset 1 0 <
      sampleFirst.crew.shared.progress.offset 1 0 := by
    rw [progress_sampleFirst]
    decide +kernel
  refine ⟨reaches_sample, hstale, ?_, ?_⟩
  · -- The row of the first table belongs to the second worker.
    exact hfound 0 (by decide) 1 (by decide) _ (hresult (by decide)) rfl (by decide +kernel)
  · -- The row of the second table belongs to the first worker.
    exact hfound 1 (by decide) 0 (by decide) _ (hresult (by decide)) rfl (by decide +kernel)

end Overlap

end AdaptiveJoin
