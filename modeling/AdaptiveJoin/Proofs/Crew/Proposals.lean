import AdaptiveJoin.Proofs.Crew.Forward
import AdaptiveJoin.Proofs.Crew.Overlap
import AdaptiveJoin.Proofs.Episode.Proposals

/-!
# No candidate is missed

Whatever the workers of a crew have done so far, and however old the snapshot of an episode is,
every position of the episode proposes exactly the rows that qualify, in ascending order, and no
operation on words wraps around on the way (`Overlap.proposals_exact`).

Little has to be known of the crew for this.  `Overlap.IsOrderly` is the invariant: the episodes
that have begun go on from within the tables (`Overlap.IsOrderly.step`).  Neither the predicates nor
the filters matter, and the offsets of the snapshot may be any words.
-/

namespace AdaptiveJoin

namespace Overlap

/-! ### Crews whose episodes start from within the tables -/

/-- The episode that a worker ends, with a snapshot of some offsets. -/
def episode (s : Overlap) (task : Task) (w : Worker) (b : Begun) (offsets : Array Nat) : Episode :=
  w.episode task s.crew.shared.progress (s.crew.shared.plans.plan b.order).1
    (.ofOffsets s.crew.shared.progress.workers s.crew.shared.progress.nrTables offsets)

/-- The invariant: checkpoints lie within the tables. -/
structure IsOrderly (s : Overlap) (p : Planner) (task : Task) (workers : Nat) : Prop where
  crew : s.crew.IsOrderly p task workers
  begun : ∀ number b, s.begun number = some b → b.order.IsPermutation task.query.nrTables ∧
    b.checkpoint.IsSettled task.query (fun _ => True) workers number b.order

variable {s : Overlap} {p : Planner} {task : Task} {workers : Nat}

theorem isOrderly_start {catalog : Catalog} {workers : Nat} (hq : task.query.IsValid) :
    (start task catalog workers).IsOrderly (Crew.planner task catalog workers) task
      (Progress.start task.query.rowCounts workers).workers :=
  ⟨Crew.isOrderly_start hq, fun _ _ hb => absurd hb (by simp [start])⟩

/-- Beginning an episode keeps the invariant. -/
theorem IsOrderly.begin (hp : p.Suits task) (hs : s.IsOrderly p task workers) {number : Nat}
    {w : Worker} {order : JoinOrder} {checkpoint : Checkpoint}
    (hw : s.crew.workers[number]? = some w) (horder : order.IsPermutation task.query.nrTables)
    (hbegin : w.begin? task s.crew.shared.progress order = .ok checkpoint) :
    (s.begin number ⟨order, checkpoint⟩).IsOrderly p task workers := by
  have hsettled := Worker.isSettled_of_begin? hp.nrTables_pos (hs.crew.worker number w hw)
    hs.crew.shared.isFor horder hbegin
  rw [hs.crew.number number w hw] at hsettled
  exact ⟨hs.crew, forall_begun_begin hs.begun ⟨horder, hsettled⟩⟩

section Episode

variable (hs : s.IsOrderly p task workers) {number : Nat} {w : Worker}
  (hw : s.crew.workers[number]? = some w) {b : Begun} (hbegun : s.begun number = some b)
  (offsets : Array Nat)

include hs

theorem IsOrderly.plan_eq (order : JoinOrder) :
    (s.crew.shared.plans.plan order).1 = p.plan order := by
  rw [PlanCache.plan_eq hs.crew.shared.isFaithful, hs.crew.shared.planner_eq]

include hbegun in
/-- **An episode that has begun starts from within the tables**, whatever snapshot it takes. -/
theorem IsOrderly.fits (w : Worker) :
    (s.episode task w b offsets).Fits ⟨b.checkpoint.tuple, w.cursors, #[], 0⟩ := by
  have hsettled : b.checkpoint.IsSettled task.query (fun _ => True) workers number
      (s.crew.shared.plans.plan b.order).1.order := by
    rw [hs.plan_eq]
    exact (hs.begun number b hbegun).2
  exact Episode.fits_of_isSettled (e := s.episode task w b offsets)
    (fun table _ => hs.crew.shared.isFor.cardinality_eq table) hsettled w.cursors

include hw hbegun

/-- Ending an episode keeps the invariant. -/
theorem IsOrderly.finish (hp : p.Suits task) :
    (s.finish task number w b offsets).IsOrderly p task workers :=
  ⟨hs.crew.finishFrom hp hw (hs.begun number b hbegun).1 (hs.fits hbegun offsets w),
    forall_begun_finish hs.begun⟩

/-- The episode runs the plan of its order. -/
theorem IsOrderly.isPlanned (hq : task.query.IsValid) (hquery : p.query = task.query)
    (hpartitioned : p.partitioned = decide (1 < workers)) :
    (s.episode task w b offsets).IsPlanned p :=
  Worker.isPlanned_episode hq.nrTables_pos hq.nrTables_le hquery hpartitioned
    hs.crew.shared.isFor (hs.begun number b hbegun).1 (hs.crew.worker number w hw).number_lt
    (hs.plan_eq b.order)

omit hbegun in
/-- The numbers of an episode are words if its offsets are. -/
theorem IsOrderly.fitsWords (hq : task.query.IsValid) (hworkers : workers ≤ maxWorkers)
    (hoffsets : ∀ x ∈ offsets, x < 2 ^ 32) : (s.episode task w b offsets).FitsWords where
  cardinality_lt table := by
    have hcard := hs.crew.shared.isFor.cardinality_eq table
    show s.crew.shared.progress.cardinality table < rowLimit
    rw [hcard]
    exact hq.cardinality_lt table
  lowerBound_lt pos := by
    unfold Episode.lowerBound
    split
    · exact Snapshot.shareOffset_lt hoffsets (by decide) _ _ _ _
    · exact Snapshot.leastOffset_lt hoffsets (by decide) _ _ _
  worker_lt := by
    have hlt := (hs.crew.worker number w hw).number_lt
    rw [← hs.crew.shared.isFor.workers_eq] at hlt
    exact hlt
  workers_le := by
    show s.crew.shared.progress.workers ≤ maxWorkers
    rw [hs.crew.shared.isFor.workers_eq]
    exact hworkers

end Episode

theorem IsOrderly.step (hp : p.Suits task) {s' : Overlap} (hs : s.IsOrderly p task workers)
    (hstep : Step task s s') : s'.IsOrderly p task workers := by
  cases hstep with
  | begin hw _ horder hbegin => exact hs.begin hp hw horder hbegin
  | finish hw hbegun _ => exact hs.finish hw hbegun _ hp

theorem IsOrderly.steps (hp : p.Suits task) {s' : Overlap} (hs : s.IsOrderly p task workers)
    (hsteps : Relation.ReflTransGen (Step task) s s') : s'.IsOrderly p task workers := by
  induction hsteps with
  | refl => exact hs
  | tail _ hstep ih => exact ih.step hp hstep

/-! ### Proposals -/

/-- **Every position proposes exactly the next row that qualifies.**  Take any run of a crew for a
valid query whose indexes are those of their columns, any episode that has begun in it, and any
snapshot that this episode may have taken.  The episode is made of moves, whatever its budget is,
and in every state that moves reach, for every position:

* `seek` moves to the first row from the current one on that qualifies, and `step` to the first one
  behind it, or to the number of rows if there is none; all other rows stay;
* computed in words, neither wraps around.

The one state in which `step` may miss a row is the first one, at the outermost position: the saved
row may belong to another share, and no episode steps before it has sought a row of its own.  No
move leads back to this state (`Episode.move_ne_resume`). -/
theorem proposals_exact {q : Query} (hvalid : q.validate = .ok ()) {catalog : Catalog}
    (hcatalog : catalog.IsBuiltFor q) {masks : Array (Option RowMask)} {config : Config}
    {workers : Nat} {s : Overlap}
    (hs : Relation.ReflTransGen (Step (.ofQuery q masks config))
      (start (.ofQuery q masks config) catalog workers) s)
    {number : Nat} {w : Worker} (hw : s.crew.workers[number]? = some w) {b : Begun}
    (hbegun : s.begun number = some b) {offsets : Array Nat} (hoffsets : ∀ x ∈ offsets, x < 2 ^ 32)
    {e : Episode} (he : e = s.episode (.ofQuery q masks config) w b offsets) {first : Walk}
    (hfirst : first = ⟨b.checkpoint.tuple, w.cursors, #[], 0⟩) :
    (∀ budget, e.Reaches (.resume 0, first)
      (Episode.standing (e.advance budget (e.resume first)))) ∧
    ∀ phase walk, e.Reaches (.resume 0, first) (phase, walk) → ∀ pos < q.nrTables,
      e.Proposal pos (walk.row (e.tableAt pos)) walk (e.seek pos walk) ∧
      ((phase = .resume 0 → 0 < pos) →
        e.Proposal pos (walk.row (e.tableAt pos) + 1) walk (e.step pos walk)) ∧
      ∃ v : WordWalk, v.Holds walk ∧ WordWalk.Computes (e.seekWords? pos v) (e.seek pos walk) ∧
        WordWalk.Computes (e.stepWords? pos v) (e.step pos walk) := by
  have hq := Query.isValid_of_validate hvalid
  have hp := Crew.suits_planner hvalid hcatalog masks config workers
  have horderly := (isOrderly_start hq).steps hp hs
  subst he hfirst
  have hplanned := horderly.isPlanned hw hbegun offsets hq rfl rfl
  have hlookups := hplanned.enumerates hcatalog
  have hascending := hlookups.isAscending hq.nrTables_pos
  have hfits := horderly.fits hbegun offsets w
  have hwords := horderly.fitsWords (b := b) hw offsets hq
    (Nat.max_le.2 ⟨by decide, Nat.min_le_right _ _⟩) hoffsets
  refine ⟨Episode.reaches_run hascending hfits, fun phase walk hreaches pos hpos => ?_⟩
  -- Moves lead from the start only to states that are on track.
  have htrack := Episode.isOnTrack_of_reaches hlookups
    (Episode.isOnTrack_start hq.nrTables_pos hfits) hreaches
  refine ⟨Episode.seek_proposal hplanned hcatalog hpos htrack.fits.size, fun hmoved => ?_, ?_⟩
  · refine Episode.step_proposal hplanned hcatalog hpos htrack.fits fun hzero => ?_
    -- Behind the first state the outermost row belongs to the share of the worker.
    exact htrack.hasShareRow fun hphase => absurd (hmoved hphase) (by omega)
  · -- All rows of such a state fit into words.
    obtain ⟨v, hv⟩ := hwords.exists_holds htrack.fits
    exact ⟨v, hv, Episode.computes_seekWords? hwords hascending hpos htrack.fits.size hv,
      Episode.computes_stepWords? hwords hascending hpos htrack.fits.size hv⟩

/-- Two workers have begun.  With the offsets of the start, the second position of the second worker
moves in the first state, and the first position once it has been moved. -/
theorem proposals_exact_sample :
    Relation.ReflTransGen (Step .sample) (start .sample .empty 2) sampleBegun ∧
      ∃ e first, e = sampleBegun.episode .sample (.start .sample 1) ⟨.sample, .start 2⟩
          sampleOffsets ∧
        e.Reaches (.resume 0, first) (e.move (.resume 0, first)) ∧
        e.Proposal 1 (first.row (e.tableAt 1)) first (e.seek 1 first) ∧
        e.Proposal 1 (first.row (e.tableAt 1) + 1) first (e.step 1 first) ∧
        e.Proposal 0 ((e.move (.resume 0, first)).2.row (e.tableAt 0) + 1)
          (e.move (.resume 0, first)).2 (e.step 0 (e.move (.resume 0, first)).2) := by
  have hworker : sampleBegun.crew.workers[1]? = some (.start .sample 1) :=
    Crew.workers_sample (by decide)
  have hbegun : sampleBegun.begun 1 = some ⟨.sample, .start 2⟩ := rfl
  have hoffsets : ∀ x ∈ sampleOffsets, x < 2 ^ 32 := by decide +kernel
  obtain ⟨e, he⟩ : ∃ e, e = sampleBegun.episode .sample (.start .sample 1) ⟨.sample, .start 2⟩
    sampleOffsets := ⟨_, rfl⟩
  obtain ⟨first, hfirst⟩ : ∃ first : Walk, first =
    ⟨(Checkpoint.start 2).tuple, (Worker.start .sample 1).cursors, #[], 0⟩ := ⟨_, rfl⟩
  obtain ⟨-, hall⟩ := proposals_exact Query.validate_sample (Catalog.isBuiltFor_empty _)
    reaches_sampleBegun hworker hbegun hoffsets he hfirst
  have hmove := e.reaches_move (.resume 0, first)
  have hmoved := e.move_ne_resume (.resume 0, first)
  obtain ⟨hseek, hstep, -⟩ := hall (.resume 0) first (Episode.Reaches.refl e _) 1 (by decide)
  obtain ⟨-, hnext, -⟩ := hall _ (e.move (.resume 0, first)).2 hmove 0 (by decide)
  exact ⟨reaches_sampleBegun, e, first, he, hmove, hseek, hstep fun _ => Nat.one_pos,
    hnext fun hphase => absurd hphase hmoved⟩

end Overlap

end AdaptiveJoin
