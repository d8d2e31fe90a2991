import AdaptiveJoin.Proofs.Crew.Schedule
import AdaptiveJoin.Proofs.Episode.Along
import AdaptiveJoin.Proofs.Plan.Catalogs

/-!
# A single join order

When all workers run one order only, nothing but the outermost table is ever divided or covered.
`Crew.IsSingle` is the invariant: every worker is along (`Worker.IsAlong`), and no offset of another
table has moved.

* `Crew.IsSingle.run`: the invariant holds however the workers take turns.
* `Crew.single_order_exact`: an order is exhausted after a bounded number of episodes, and then the
  worker has found every result of its share once.
-/

namespace AdaptiveJoin

namespace Crew

/-- The outcomes of a worker's episodes when the workers run an order in turns. -/
def outcomesOf (c : Crew) (task : Task) (order : JoinOrder) (number : Nat) : List Nat → List Outcome
  | [] => []
  | turn :: turns =>
    (if turn = number then (c.execute task turn order).1.toList else []) ++
      (c.execute task turn order).2.outcomesOf task order number turns

/-- The invariant of a crew that runs a single order; `outcomes` are those of each worker. -/
structure IsSingle (c : Crew) (p : Planner) (task : Task) (workers : Nat) (order : JoinOrder)
    (outcomes : Nat → List Outcome) : Prop where
  isSound : c.IsSound p task workers
  size : c.workers.size = workers
  isAlong : ∀ (number : Nat) (w : Worker), c.workers[number]? = some w →
    w.IsAlong task.query c.shared.progress workers order (outcomes number)
  /-- Only offsets of the outermost table have moved. -/
  deeper : ∀ table < task.query.nrTables, table ≠ order.leftmost → ∀ share < workers,
    c.shared.progress.offset table share =
      Progress.initialOffset (task.query.cardinality table) share

variable {c : Crew} {p : Planner} {task : Task} {workers : Nat} {order : JoinOrder}
  {outcomes : Nat → List Outcome}

/-- **Finishing an episode keeps the invariant** and adds the outcome. -/
theorem IsSingle.finish {number : Nat} {w : Worker} {plans : PlanCache} {e : Episode}
    {checkpoint : Checkpoint} (hc : c.IsSingle p e.task e.workers e.order outcomes)
    (hsound : (c.finish number w plans e checkpoint).IsSound p e.task e.workers)
    (hw : c.workers[number]? = some w) (hwell : e.IsWellFormed p) (hworker : e.worker = w.number)
    (hsnapshot : e.snapshot = c.shared.progress.snapshot) (hmasks : e.task.HasExactMasks)
    (hbudget : 0 < e.task.budget)
    (hcheckpoint : checkpoint.tuple = (w.reached e.task.query e.order).tuple)
    (hunfinished : (w.reached e.task.query e.order).finished = false)
    (hrows : 0 < e.task.query.cardinality e.order.leftmost) :
    (c.finish number w plans e checkpoint).IsSingle p e.task e.workers e.order fun other =>
      outcomes other ++
        if number = other then [(w.finish e c.shared.progress checkpoint).1] else [] := by
  have hfor := hc.isSound.shared.isFor
  have hnumber := hc.isSound.number number w hw
  obtain ⟨hlt, hmemory, -⟩ := hc.isSound.worker number w hw
  have hfinish := (hc.isAlong number w hw).finish hwell hcheckpoint hunfinished hrows hfor hworker
    hsnapshot hc.deeper hmasks hbudget hlt hmemory
  -- Only the worker's own offset of the outermost table moves.
  have hoffset : ∀ table, ∀ share < e.workers, ¬(table = e.order.leftmost ∧ share = number) →
      (c.finish number w plans e checkpoint).shared.progress.offset table share =
        c.shared.progress.offset table share := by
    intro table share hs hne
    rw [Crew.finish, Worker.finish_progress, hmemory, hfor.offset_publish
      (hfor.nrTables_eq ▸ hwell.tableAt_lt hwell.nrTables_pos) (hfor.workers_eq ▸ hlt) _ _
      (hfor.workers_eq ▸ hs), hnumber, if_neg hne]
  refine ⟨hsound, Array.size_setIfInBounds.trans hc.size, fun other w' hw' => ?_,
    fun table ht hne share hs => ?_⟩
  · rw [Crew.finish, Array.getElem?_setIfInBounds] at hw'
    by_cases hother : number = other
    · rw [if_pos hother, if_pos (Array.getElem?_eq_some_iff.1 hw).1, Option.some.injEq] at hw'
      subst hother hw'
      rw [if_pos rfl]
      exact hfinish
    · rw [if_neg hother] at hw'
      rw [if_neg hother, List.append_nil]
      have hother' := hc.isSound.number other w' hw'
      refine (hc.isAlong other w' hw').congr (hoffset _ _ ?_ fun heq => hother ?_)
      · exact (hc.isSound.worker other w' hw').number_lt
      · rw [← heq.2, hother']
  · rw [← hc.deeper table ht hne share hs]
    exact hoffset table share hs fun heq => hne heq.1

section Single

variable (hp : p.Serves task workers) (hmasks : task.HasExactMasks)
  (hempty : task.KnowsEmptyTables) (hbudget : 0 < task.budget)
  (horder : order.IsPermutation task.query.nrTables)

include hp hmasks hempty hbudget horder

/-- **An episode keeps the invariant** and adds its outcome. -/
theorem IsSingle.execute (hc : c.IsSingle p task workers order outcomes) (number : Nat) :
    (c.execute task number order).2.IsSingle p task workers order fun other =>
      outcomes other ++
        if number = other then (c.execute task number order).1.toList else [] := by
  have hsound := hc.isSound.execute hp hmasks number horder
  have hfor := hc.isSound.shared.isFor
  cases hw : c.workers[number]? with
  | none =>
    rw [execute_of_none hw]
    simpa using hc
  | some w =>
    have hlt := (hc.isSound.worker number w hw).number_lt
    have halong := hc.isAlong number w hw
    rcases execute_cases hw order with ⟨outcome, hbegin, heq⟩ | ⟨checkpoint, hbegin, heq⟩
    · -- The worker has nothing to do, and nothing changes.
      rw [heq]
      refine ⟨hc.isSound, hc.size, fun other w' hw' => ?_, hc.deeper⟩
      by_cases hother : number = other
      · subst hother
        obtain rfl := Option.some.inj (hw.symm.trans hw')
        rw [if_pos rfl]
        obtain ⟨hexhausted, hresults, -⟩ := Worker.begin?_eq_error hbegin
        exact halong.idle hresults hexhausted fun tuple hr =>
          halong.mem_results_of_begin? hfor horder hp.nrTables_pos hempty hlt hbegin hr
      · rw [if_neg hother, List.append_nil]
        exact hc.isAlong other w' hw'
    · rw [heq] at hsound ⊢
      obtain ⟨hnonempty, rfl, hunfinished, -⟩ := Worker.begin?_eq_ok hbegin
      -- No table is empty, or else the worker would have nothing to do.
      have hrows : 0 < task.query.cardinality order.leftmost := by
        apply Nat.pos_of_ne_zero
        intro hzero
        rw [Bool.eq_false_iff] at hnonempty
        exact hnonempty (hempty.2 ⟨_, horder.tableAt_lt hp.nrTables_pos, hzero⟩)
      obtain ⟨hsame, htuple⟩ := halong.continueFrom hfor horder hp.nrTables_pos hrows
      rw [hsame] at hunfinished
      have hwell := hc.isSound.isWellFormed_episode hp hw horder
      have heorder := episode_order hc.isSound.shared w order
      have heworkers : (c.episode task w order).workers = workers := hfor.workers_eq
      have htask : (c.episode task w order).task = task := rfl
      have hsnapshot : (c.episode task w order).snapshot = c.shared.progress.snapshot := rfl
      have hworker : (c.episode task w order).worker = w.number := rfl
      have hcheckpoint := htuple hunfinished
      generalize c.episode task w order = e at *
      subst heorder heworkers htask
      exact hc.finish hsound hw hwell hworker hsnapshot hmasks hbudget hcheckpoint hunfinished
        hrows

/-- **The invariant holds however the workers take turns.** -/
theorem IsSingle.run (hc : c.IsSingle p task workers order outcomes) (turns : List Nat) :
    (c.run task (turns.map (·, order))).IsSingle p task workers order fun number =>
      outcomes number ++ c.outcomesOf task order number turns := by
  induction turns generalizing c outcomes with
  | nil => simpa [Crew.run, outcomesOf] using hc
  | cons turn turns ih =>
    have h := ih (hc.execute hp hmasks hempty hbudget horder turn)
    simp only [List.append_assoc] at h
    exact h

end Single

/-- Workers that have run nothing. -/
theorem isSingle_start {task : Task} {catalog : Catalog} {workers : Nat} {order : JoinOrder}
    (hq : task.query.IsValid) :
    (start task catalog workers).IsSingle (planner task catalog workers) task
      (Progress.start task.query.rowCounts workers).workers order fun _ => [] where
  isSound := isSound_start hq
  size := by simp [start, Shared.start]
  isAlong := fun number w hw => by
    obtain ⟨hlt, rfl⟩ := getElem?_start_workers task catalog workers hw
    exact Worker.isAlong_start task number (isFor_start task.query workers hq) hlt
  deeper := fun table _ _ share hs => by
    rw [← cardinality_start task.query workers hq]
    exact Progress.offset_start _ _ _ hs

/-- Every turn of a worker has an outcome. -/
theorem length_outcomesOf (c : Crew) (task : Task) (order : JoinOrder) {number : Nat}
    (hnumber : number < c.workers.size) (turns : List Nat) :
    (c.outcomesOf task order number turns).length = turns.count number := by
  induction turns generalizing c with
  | nil => rfl
  | cons turn turns ih =>
    unfold outcomesOf
    rw [List.length_append, ih _ (by rwa [size_execute]), List.count_cons, Nat.add_comm]
    by_cases hturn : turn = number
    · subst hturn
      -- A turn of the worker has one outcome, a turn of another one none.
      obtain ⟨outcome, houtcome⟩ : ∃ outcome, (c.execute task turn order).1 = some outcome := by
        unfold execute
        rw [Array.getElem?_eq_getElem hnumber]
        exact ⟨_, rfl⟩
      simp [houtcome]
    · simp [hturn]

/-- **A single order is enumerated exactly.**  However the workers of a valid query take turns with
one order, a worker that has had enough turns has exhausted it; and once it has, its results are
those of its share of the outermost table, and its episodes have counted each of them once. -/
theorem single_order_exact {q : Query} (hvalid : q.validate = .ok ()) (hbuilt : q.Built)
    (hsmall : q.HasSmallTables) (hexact : q.HasExactConstants) {catalog : Catalog}
    (hcatalog : catalog.IsBuiltFor q) {masks : Array (Option RowMask)} {config : Config}
    (hmasks : (Task.ofQuery q masks config).HasExactMasks) {order : JoinOrder}
    (horder : order.IsPermutation q.nrTables) (workers : Nat) {number : Nat}
    (hnumber : number < (Progress.start q.rowCounts workers).workers) (turns : List Nat) :
    let task := Task.ofQuery q masks config
    let c := start task catalog workers
    let outcomes := c.outcomesOf task order number turns
    let share := q.nestedLoopJoin.filter fun tuple =>
      tuple.row order.leftmost % (Progress.start q.rowCounts workers).workers = number
    (((q.bounds order).map (· + 1)).prod ≤ turns.count number →
      ∃ outcome ∈ outcomes, outcome.exhausted = true) ∧
    ((∃ outcome ∈ outcomes, outcome.exhausted = true) →
      ∃ w, (c.run task (turns.map (·, order))).workers[number]? = some w ∧
        (∀ tuple, tuple ∈ w.results ↔ tuple ∈ share) ∧
        (outcomes.map Outcome.nrResults).sum = w.results.size ∧ w.results.size = share.length) := by
  intro task c outcomes share
  have hq := Query.isValid_of_validate hvalid
  have hstart : c.IsSingle _ task _ order fun _ => [] := isSingle_start hq
  have hend := hstart.run
    (serves_planner hvalid hbuilt
      (hasCompleteLookups_planner hbuilt hsmall hexact hcatalog masks config workers))
    hmasks (Task.knowsEmptyTables_ofQuery q masks config)
    (show 0 < max config.budget.toNat 1 by omega) horder turns
  obtain ⟨w, hw⟩ : ∃ w, (c.run task (turns.map (·, order))).workers[number]? = some w := by
    rw [← hend.size] at hnumber
    exact ⟨_, Array.getElem?_eq_getElem hnumber⟩
  have halong := hend.isAlong number w hw
  rw [List.nil_append] at halong
  have hresults : (∃ outcome ∈ outcomes, outcome.exhausted = true) →
      ∀ tuple, tuple ∈ w.results ↔ tuple ∈ share := by
    intro hexhausted tuple
    rw [List.mem_filter, Query.mem_nestedLoopJoin, decide_eq_true_eq]
    have hself := hend.isSound.number number w hw
    constructor
    · intro hmem
      have hr := ((halong.mem_results tuple).1 hmem).1
      exact ⟨hr.1, hr.2.trans hself⟩
    · intro hr
      exact halong.of_exhausted hexhausted tuple ⟨hr.1, hr.2.trans hself.symm⟩
  refine ⟨fun hcount => ?_, fun hexhausted => ⟨w, hw, hresults hexhausted, halong.sum_nrResults,
    size_eq_length (q.nodup_nestedLoopJoin.filter _) (hresults hexhausted)⟩⟩
  -- Otherwise every turn has moved the worker ahead.
  by_contra hnone
  have hall : outcomes.filter (fun outcome => !outcome.exhausted) = outcomes := by
    rw [List.filter_eq_self]
    intro outcome hmem
    exact by
      simpa using fun hexhausted => hnone ⟨outcome, hmem, hexhausted⟩
  have hle := halong.length_le
  rw [hall, length_outcomesOf c task order (hstart.size ▸ hnumber)] at hle
  have hlt := rank_lt (Worker.forall₂_bounds horder halong.row_le)
  exact absurd (hcount.trans hle) (not_le.2 hlt)

/-- Two workers take turns. -/
def sampleTurns : List Nat := (List.replicate 24 [0, 1]).flatten

/-- Each of two workers exhausts the order in episodes of one step, and finds its share. -/
theorem single_order_exact_sample :
    (∀ number < 2, ((Query.sample.bounds .sample).map (· + 1)).prod ≤ sampleTurns.count number) ∧
      ∀ number < 2, ∃ w, ((start .stepwise .sample 2).run .stepwise
          (sampleTurns.map (·, .sample))).workers[number]? = some w ∧
        (∀ tuple, tuple ∈ w.results ↔ tuple ∈ [#[number, 0], #[number, 2]]) ∧
        (((start .stepwise .sample 2).outcomesOf .stepwise .sample number sampleTurns).map
          Outcome.nrResults).sum = 2 := by
  have hcount : ∀ number < 2,
      ((Query.sample.bounds .sample).map (· + 1)).prod ≤ sampleTurns.count number := by
    decide +kernel
  have hshare : ∀ number < 2, (Query.sample.nestedLoopJoin.filter fun tuple =>
      tuple.row JoinOrder.sample.leftmost % 2 = number) = [#[number, 0], #[number, 2]] := by
    decide +kernel
  refine ⟨hcount, fun number hnumber => ?_⟩
  -- Enough turns exhaust the order, and then the share is complete.
  obtain ⟨hends, hall⟩ := single_order_exact Query.validate_sample Query.built_sample
    Query.hasSmallTables_sample Query.hasExactConstants_sample Catalog.isBuiltFor_sample
    (Task.hasExactMasks_sample { budget := 1 }) JoinOrder.isPermutation_sample 2 hnumber sampleTurns
  obtain ⟨w, hw, hresults, hsum, hsize⟩ := hall (hends (hcount number hnumber))
  have hshare := hshare number hnumber
  refine ⟨w, hw, fun tuple => ?_, ?_⟩
  · exact (hresults tuple).trans (iff_of_eq (congrArg (tuple ∈ ·) hshare))
  · exact (hsum.trans hsize).trans (congrArg List.length hshare)

end Crew

end AdaptiveJoin
