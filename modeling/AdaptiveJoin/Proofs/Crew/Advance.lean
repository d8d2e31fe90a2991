import Mathlib.Data.Finset.Card
import AdaptiveJoin.Proofs.Crew.Emissions
import AdaptiveJoin.Proofs.Crew.Remaining
import AdaptiveJoin.Proofs.Episode.Passing
import AdaptiveJoin.Proofs.Plan.Catalogs

/-!
# Every episode makes progress

As long as the share of the outermost table is not finished, an episode of an order either finishes
it or spends steps of its budget and brings the worker ahead with the order
(`Crew.IsLive.execute_advances`).  The worker is then also ahead of the checkpoints that other
orders have offered on the initial parts of the order, because an episode goes on from the furthest
one.

Every episode that does not exhaust its order passes a tuple of rows that has been ahead of the
worker until then (`Crew.IsOrderly.tuplesAhead_finish`), so the order is exhausted after fewer such
episodes than there are tuples (`Crew.episodes_advance`).  A schedule in which every worker has as
many episodes of an order finishes the join (`Crew.isFinished_run`), whatever else it runs.
-/

namespace AdaptiveJoin

theorem length_rowsBelow (bounds : List Nat) : (rowsBelow bounds).length = bounds.prod := by
  induction bounds with
  | nil => rfl
  | cons bound bounds ih =>
    rw [rowsBelow, List.length_flatMap, List.prod_cons]
    simp [ih]

/-! ### Tuples ahead -/

namespace Query

variable {q : Query} {o : JoinOrder}

/-- The number of tuples of rows of the tables. -/
def nrTuples (q : Query) : Nat := (q.tables.toList.map Table.cardinality).prod

/-- An order runs through the tuples of rows in some order. -/
theorem prod_bounds (ho : o.IsPermutation q.nrTables) : (q.bounds o).prod = q.nrTuples := by
  have hall : (List.range q.nrTables).map q.cardinality =
      q.tables.toList.map Table.cardinality := by
    apply List.ext_getElem (by simp [nrTables])
    intro i hi hi'
    have hlt : i < q.tables.size := by simpa [nrTables] using hi
    simp [cardinality, hlt]
  exact (ho.map q.cardinality).prod_eq.trans (congrArg List.prod hall)

theorem rowsOf_mem_rowsBelow (ho : o.IsPermutation q.nrTables) {tuple : Tuple}
    (h : ∀ table < q.nrTables, tuple.row table < q.cardinality table) :
    o.rowsOf tuple ∈ rowsBelow (q.bounds o) := by
  unfold JoinOrder.rowsOf bounds
  refine mem_rowsBelow.2 ⟨by rw [List.length_map, List.length_map], fun i hi => ?_⟩
  rw [List.length_map] at hi
  rw [List.getElem?_map, List.getElem?_map, List.getElem?_eq_getElem hi]
  exact h _ (ho.mem_iff.1 (List.getElem_mem hi))

end Query

/-- The rows of the tuples that lie ahead of a checkpoint. -/
def Checkpoint.tuplesAhead (c : Checkpoint) (q : Query) (o : JoinOrder) : Finset (List Nat) :=
  if c.finished then ∅ else (rowsBelow (q.bounds o)).toFinset.filter (o.rowsOf c.tuple < ·)

namespace Checkpoint

variable {q : Query} {o : JoinOrder} {c c' : Checkpoint}

theorem mem_tuplesAhead {rows : List Nat} : rows ∈ c.tuplesAhead q o ↔
    c.finished = false ∧ rows ∈ rowsBelow (q.bounds o) ∧ o.rowsOf c.tuple < rows := by
  unfold tuplesAhead
  cases c.finished <;> simp

/-- Going on leaves no more tuples ahead. -/
theorem tuplesAhead_subset (hunfinished : c.finished = false)
    (hle : c'.finished = false → o.rowsOf c.tuple ≤ o.rowsOf c'.tuple) :
    c'.tuplesAhead q o ⊆ c.tuplesAhead q o := by
  intro rows hrows
  rw [mem_tuplesAhead] at hrows ⊢
  exact ⟨hunfinished, hrows.2.1, lt_of_le_of_lt (hle hrows.1) hrows.2.2⟩

/-- A tuple that is passed is not ahead any more. -/
theorem tuplesAhead_ssubset (hunfinished : c.finished = false) {rows : List Nat}
    (hrows : rows ∈ rowsBelow (q.bounds o)) (hlt : o.rowsOf c.tuple < rows)
    (hle : rows ≤ o.rowsOf c'.tuple) : c'.tuplesAhead q o ⊂ c.tuplesAhead q o := by
  refine (Finset.ssubset_iff_of_subset
    (tuplesAhead_subset hunfinished fun _ => hlt.le.trans hle)).2
    ⟨rows, mem_tuplesAhead.2 ⟨hunfinished, hrows, hlt⟩, fun hmem => ?_⟩
  exact absurd (mem_tuplesAhead.1 hmem).2.2 (not_lt.2 hle)

/-- At the start the first tuple is not ahead. -/
theorem card_tuplesAhead_start_lt (ho : o.IsPermutation q.nrTables)
    (hrows : ∀ table < q.nrTables, 0 < q.cardinality table) :
    ((start q.nrTables).tuplesAhead q o).card < q.nrTuples := by
  have hzero (table : Nat) : (start q.nrTables).tuple.row table = 0 := by
    simp only [start, Tuple.row, Array.getElem?_replicate]
    split <;> rfl
  have hfirst : o.rowsOf (start q.nrTables).tuple ∈ rowsBelow (q.bounds o) :=
    Query.rowsOf_mem_rowsBelow ho fun table ht => (hzero table).trans_lt (hrows table ht)
  rw [← Query.prod_bounds ho, ← length_rowsBelow, ← List.toFinset_card_of_nodup (nodup_rowsBelow _)]
  refine Finset.card_lt_card ((Finset.ssubset_iff_of_subset fun rows hmem => ?_).2
    ⟨_, List.mem_toFinset.2 hfirst, fun hmem => ?_⟩)
  · exact List.mem_toFinset.2 (mem_tuplesAhead.1 hmem).2.1
  · exact lt_irrefl _ (mem_tuplesAhead.1 hmem).2.2

end Checkpoint

namespace Crew

variable {c : Crew} {p : Planner} {task : Task} {workers : Nat}

/-! ### One episode -/

/-- The checkpoint from which a worker goes on with an order. -/
def checkpoint? (c : Crew) (number : Nat) (order : JoinOrder) : Option Checkpoint :=
  c.workers[number]?.map fun w => w.memory.continueFrom c.shared.progress order

/-- An episode makes progress.  The order is not over before the episode, which stays within its
budget.  It finishes the share of the worker, or it spends steps and the order goes on from strictly
further ahead. -/
def Advances (c : Crew) (task : Task) (number : Nat) (order : JoinOrder) : Prop :=
  ∃ before after outcome, c.checkpoint? number order = some before ∧ before.finished = false ∧
    (c.execute task number order).1 = some outcome ∧ outcome.steps ≤ task.budget ∧
    (c.execute task number order).2.checkpoint? number order = some after ∧
    ((outcome.exhausted = true ∧ (c.execute task number order).2.shared.progress.isShareFinished
        order.leftmost number = true) ∨
      (outcome.exhausted = false ∧ 1 ≤ outcome.steps ∧ after.isAheadOf before order = true))

section Episode

variable (hp : p.Suits task) {number : Nat} {w : Worker} (hw : c.workers[number]? = some w)
  {order : JoinOrder} (horder : order.IsPermutation task.query.nrTables)

include hp hw horder

section Finish

variable (hc : c.IsOrderly p task workers) {checkpoint : Checkpoint}
  (hbegin : w.begin? task c.shared.progress order = .ok checkpoint)

include hc

/-- An episode that is over finishes the share of its worker. -/
theorem IsOrderly.isShareFinished_finish
    (hend : ((c.episode task w order).run checkpoint.tuple w.cursors).1 = none) :
    (w.finish (c.episode task w order) c.shared.progress checkpoint).2.2.isShareFinished
      order.leftmost number = true := by
  have hset := hc.worker number w hw
  have hnumber := hc.number number w hw
  rw [Worker.finish_progress, episode_order hc.shared w order, ← hnumber, ← hset.worker_eq]
  refine hc.shared.isFor.isShareFinished_publish_self (horder.tableAt_lt hp.nrTables_pos)
    (hset.worker_eq ▸ hset.number_lt) ?_
  unfold Episode.stop
  rw [hend]
  exact Nat.le_refl _

include hbegin

/-- **After an episode that is not over the order goes on from further ahead.**  The worker
remembers the point at which the episode has stopped, and goes on from there or from a point further
ahead. -/
theorem IsOrderly.isAheadOf_finish (hbudget : 0 < task.budget) {pos : Nat}
    (hend : ((c.episode task w order).run checkpoint.tuple w.cursors).1 = some pos) :
    ((w.finish (c.episode task w order) c.shared.progress checkpoint).2.1.memory.continueFrom
      (w.finish (c.episode task w order) c.shared.progress checkpoint).2.2 order).isAheadOf
        checkpoint order = true := by
  have hstop := (hc.reached_finish hp hw horder hbegin).2.2
  have hfor := (hc.finish hp hw horder hbegin).shared.isFor
  rw [← Worker.ownCheckpoint_eq hfor] at hstop
  have hown := (Memory.isAheadOf_continueFrom
    (w.finish (c.episode task w order) c.shared.progress checkpoint).2.1.memory
    (w.finish (c.episode task w order) c.shared.progress checkpoint).2.2 order).1
  -- The stop is ahead of the start, and the worker goes on at least from the stop.
  have hahead : (Episode.stop ((c.episode task w order).run checkpoint.tuple
      w.cursors)).isAheadOf checkpoint order = true := by
    have hlt := Episode.run_ahead (hc.isAscending_episode hp horder)
      (hc.fits_episode hp hw horder hbegin) hbudget hend
    rw [episode_order hc.shared w order] at hlt
    refine Checkpoint.isAheadOf_iff.2 (Or.inr ⟨?_, hlt⟩)
    rw [(Worker.begin?_eq_ok hbegin).2.2.1, Episode.stop, hend]
    rfl
  by_contra hbehind
  have := Checkpoint.not_isAheadOf_trans (hstop ▸ hown) (Bool.eq_false_iff.2 hbehind)
  exact absurd (hahead.symm.trans this) (by decide)

/-- **An episode that is not over passes a tuple of rows**, which has been ahead before. -/
theorem IsOrderly.tuplesAhead_finish
    (hrows : ∀ table < task.query.nrTables, 0 < task.query.cardinality table)
    (hbudget : 0 < task.budget) {w' : Worker}
    (hw' : w' = (w.finish (c.episode task w order) c.shared.progress checkpoint).2.1) :
    (w'.reached task.query order).tuplesAhead task.query order ⊆
        (w.reached task.query order).tuplesAhead task.query order ∧
      (((c.episode task w order).run checkpoint.tuple w.cursors).1.isSome →
        (w'.reached task.query order).tuplesAhead task.query order ⊂
          (w.reached task.query order).tuplesAhead task.query order) := by
  obtain ⟨hunfinished, hle, hreached⟩ := hc.reached_finish hp hw horder hbegin
  rw [hw', hreached, Episode.stop]
  cases hend : ((c.episode task w order).run checkpoint.tuple w.cursors).1 with
  | none =>
    -- The order is over, so nothing is ahead of it any more.
    exact ⟨Checkpoint.tuplesAhead_subset hunfinished fun h => absurd h (by simp),
      fun h => absurd h (by simp)⟩
  | some pos =>
    have hcardinality : ∀ table,
        (c.episode task w order).cardinality table = task.query.cardinality table :=
      hc.shared.isFor.cardinality_eq
    -- Between the start and the stop lies the tuple of rows that the episode has passed.
    obtain ⟨y, hy, hlt, hcome⟩ := Episode.run_passes (hc.isAscending_episode hp horder)
      (fun table ht => (hcardinality table).symm ▸ hrows table ht)
      (hc.fits_episode hp hw horder hbegin) hbudget hend
    rw [episode_order hc.shared w order] at hlt hcome
    have hbelow : order.rowsOf y ∈ rowsBelow (task.query.bounds order) :=
      Query.rowsOf_mem_rowsBelow horder fun table ht => hcardinality table ▸ hy.row_lt table ht
    have hless : Checkpoint.tuplesAhead ⟨_, pos, false⟩ task.query order ⊂
        (w.reached task.query order).tuplesAhead task.query order :=
      Checkpoint.tuplesAhead_ssubset hunfinished hbelow (lt_of_le_of_lt hle hlt) hcome
    exact ⟨hless.subset, fun _ => hless⟩

end Finish

/-- **An episode brings its worker ahead**: an order of which the share is not finished is exhausted
by an episode, or goes on from further ahead. -/
theorem IsLive.execute_advances (hc : c.IsLive p task workers) (hbudget : 0 < task.budget)
    (hempty : task.hasEmptyTable = false)
    (hshare : c.shared.progress.isShareFinished order.leftmost number = false) :
    c.Advances task number order := by
  obtain ⟨checkpoint, hbegin⟩ :=
    hc.exists_begin? hp hw horder hempty ((hc.number number w hw).symm ▸ hshare)
  obtain ⟨-, hcheckpoint, hunfinished, -⟩ := Worker.begin?_eq_ok hbegin
  have hsteps := Episode.run_steps (hc.isAscending_episode hp horder)
    (hc.fits_episode hp hw horder hbegin)
  have hlt := (Array.getElem?_eq_some_iff.1 hw).1
  -- The share is not finished, so the episode has something to do.
  rcases execute_cases hw order with ⟨outcome, hnone, -⟩ | ⟨checkpoint', hbegin', heq⟩
  · exact absurd (hbegin.symm.trans hnone) (by simp)
  obtain rfl := Except.ok.inj (hbegin.symm.trans hbegin')
  unfold Advances
  rw [heq]
  refine ⟨checkpoint, _, _, by rw [checkpoint?, hw, Option.map_some, hcheckpoint], hunfinished,
    rfl, hsteps.1, by
      rw [checkpoint?, Crew.finish, Array.getElem?_setIfInBounds_self_of_lt hlt,
        Option.map_some], ?_⟩
  obtain ⟨hexhausted, -, hspent⟩ :=
    w.finish_outcome (c.episode task w order) c.shared.progress checkpoint
  rw [hexhausted, hspent]
  cases hend : ((c.episode task w order).run checkpoint.tuple w.cursors).1 with
  | none =>
    exact Or.inl ⟨rfl, hc.isShareFinished_finish hp hw horder hend⟩
  | some pos =>
    -- The loops have used up the budget.
    refine Or.inr ⟨rfl, ?_, hc.isAheadOf_finish hp hw horder hbegin hbudget hend⟩
    exact (hsteps.2 (by rw [hend]; rfl)).symm ▸ hbudget

end Episode

/-- Episodes of other workers and of other orders leave the point reached alone. -/
theorem IsOrderly.reached_execute_of_ne (hc : c.IsOrderly p task workers) {number : Nat}
    {order : JoinOrder} {entry : Nat × JoinOrder} (hne : entry ≠ (number, order)) {w w' : Worker}
    (hw : c.workers[number]? = some w)
    (hw' : (c.execute task entry.1 entry.2).2.workers[number]? = some w') :
    w'.reached task.query order = w.reached task.query order := by
  cases hx : c.workers[entry.1]? with
  | none =>
    rw [execute_of_none hx] at hw'
    rw [Option.some.inj (hw.symm.trans hw')]
  | some x =>
    rcases execute_cases hx entry.2 with ⟨outcome, -, heq⟩ | ⟨checkpoint, -, heq⟩
    · rw [heq] at hw'
      rw [Option.some.inj (hw.symm.trans hw')]
    · rw [heq] at hw'
      by_cases hnumber : entry.1 = number
      · subst hnumber
        obtain rfl := Option.some.inj (hw.symm.trans hx)
        rw [Crew.finish, Array.getElem?_setIfInBounds_self_of_lt
          (Array.getElem?_eq_some_iff.1 hw).1, Option.some.injEq] at hw'
        subst hw'
        -- The worker is the same one, so the order is another one.
        apply Worker.reached_finish_of_ne
        rw [episode_order hc.shared w entry.2]
        exact fun heq => hne (Prod.ext rfl heq.symm)
      · rw [Crew.finish, Array.getElem?_setIfInBounds, if_neg hnumber] at hw'
        rw [Option.some.inj (hw.symm.trans hw')]

/-- The number of episodes that do not exhaust their order. -/
def nrUnfinished (episodes : List (Outcome × List Tuple)) : Nat :=
  episodes.countP fun episode => !episode.1.exhausted

/-- **Every episode of an order that does not exhaust it leaves fewer tuples ahead.** -/
theorem IsOrderly.nrUnfinished_add_card_le (hp : p.Suits task) (hc : c.IsOrderly p task workers)
    (hrows : ∀ table < task.query.nrTables, 0 < task.query.cardinality table)
    (hbudget : 0 < task.budget) {number : Nat} {w w' : Worker} (hw : c.workers[number]? = some w)
    {order : JoinOrder} {entry : Nat × JoinOrder}
    (hentry : entry.2.IsPermutation task.query.nrTables)
    (hw' : (c.execute task entry.1 entry.2).2.workers[number]? = some w') :
    nrUnfinished (c.episodesOf task number order [entry]) +
        ((w'.reached task.query order).tuplesAhead task.query order).card ≤
      ((w.reached task.query order).tuplesAhead task.query order).card := by
  unfold episodesOf episodesOf
  rw [List.append_nil]
  by_cases hsame : entry = (number, order)
  · subst hsame
    have horder : order.IsPermutation task.query.nrTables := hentry
    rw [if_pos rfl]
    rcases execute_cases hw order with ⟨outcome, hbegin, heq⟩ | ⟨checkpoint, hbegin, heq⟩
    · -- Nothing is left to do, and the outcome says so.
      have hexhausted := (Worker.begin?_eq_error hbegin).1
      rw [heq] at hw' ⊢
      obtain rfl := Option.some.inj (hw.symm.trans hw')
      simp [nrUnfinished, hexhausted]
    · rw [heq] at hw' ⊢
      rw [Crew.finish, Array.getElem?_setIfInBounds_self_of_lt
        (Array.getElem?_eq_some_iff.1 hw).1, Option.some.injEq] at hw'
      obtain ⟨hsubset, hless⟩ :=
        hc.tuplesAhead_finish hp hw horder hbegin hrows hbudget hw'.symm
      have hexhausted :=
        (w.finish_outcome (c.episode task w order) c.shared.progress checkpoint).1
      unfold nrUnfinished
      rw [Option.toList_some, List.map_singleton, List.countP_singleton, hexhausted]
      -- An episode that counts passes a tuple, the others only go on.
      cases hend : ((c.episode task w order).run checkpoint.tuple w.cursors).1 with
      | none => simpa using Finset.card_le_card hsubset
      | some pos =>
        have hlt := Finset.card_lt_card (hless (by rw [hend]; rfl))
        simp only [Option.isNone_some, Bool.not_false, if_true]
        omega
  · -- Another episode neither counts nor moves the worker with the order.
    rw [if_neg hsame, hc.reached_execute_of_ne hsame hw hw']
    exact (Nat.zero_add _).le

/-! ### Schedules -/

/-- **The invariant holds after every schedule.** -/
theorem IsLive.run (hp : p.Suits task) (hc : c.IsLive p task workers)
    {schedule : List (Nat × JoinOrder)}
    (hschedule : ∀ entry ∈ schedule, entry.2.IsPermutation task.query.nrTables) :
    (c.run task schedule).IsLive p task workers := by
  induction schedule generalizing c with
  | nil => exact hc
  | cons entry rest ih =>
    exact ih (hc.execute hp entry.1 (hschedule entry List.mem_cons_self)).1
      fun entry' hentry' => hschedule entry' (List.mem_cons_of_mem _ hentry')

theorem nrUnfinished_episodesOf_cons (c : Crew) (task : Task) (number : Nat) (order : JoinOrder)
    (entry : Nat × JoinOrder) (rest : List (Nat × JoinOrder)) :
    nrUnfinished (c.episodesOf task number order (entry :: rest)) =
      nrUnfinished (c.episodesOf task number order [entry]) +
        nrUnfinished ((c.execute task entry.1 entry.2).2.episodesOf task number order rest) := by
  unfold nrUnfinished
  rw [← List.countP_append]
  rw [episodesOf, episodesOf, episodesOf, List.append_nil]

/-- **A schedule has no more episodes of an order that do not exhaust it than tuples lie ahead.** -/
theorem IsOrderly.nrUnfinished_le (hp : p.Suits task) (hc : c.IsOrderly p task workers)
    (hrows : ∀ table < task.query.nrTables, 0 < task.query.cardinality table)
    (hbudget : 0 < task.budget) {number : Nat} {w : Worker} (hw : c.workers[number]? = some w)
    (order : JoinOrder) {schedule : List (Nat × JoinOrder)}
    (hschedule : ∀ entry ∈ schedule, entry.2.IsPermutation task.query.nrTables) :
    nrUnfinished (c.episodesOf task number order schedule) ≤
      ((w.reached task.query order).tuplesAhead task.query order).card := by
  induction schedule generalizing c w with
  | nil => exact Nat.zero_le _
  | cons entry rest ih =>
    have hentry := hschedule entry List.mem_cons_self
    have hlt := (Array.getElem?_eq_some_iff.1 hw).1
    rw [← size_execute c task entry.1 entry.2] at hlt
    have hw' := Array.getElem?_eq_getElem hlt
    -- The episode is paid for by a tuple that it passes.
    have hstep : nrUnfinished (c.episodesOf task number order [entry]) + _ ≤ _ :=
      hc.nrUnfinished_add_card_le hp hrows hbudget hw hentry hw'
    have hrest := ih (hc.execute hp entry.1 hentry) hw'
      fun entry' hentry' => hschedule entry' (List.mem_cons_of_mem _ hentry')
    rw [nrUnfinished_episodesOf_cons]
    omega

/-- Without a worker of some number there are no episodes of it. -/
theorem episodesOf_of_none {number : Nat} (hw : c.workers[number]? = none) (order : JoinOrder)
    (schedule : List (Nat × JoinOrder)) : c.episodesOf task number order schedule = [] := by
  induction schedule generalizing c with
  | nil => rfl
  | cons entry rest ih =>
    have hnone : (c.execute task entry.1 entry.2).2.workers[number]? = none := by
      rw [Array.getElem?_eq_none_iff, size_execute]
      exact Array.getElem?_eq_none_iff.1 hw
    rw [episodesOf, ih hnone, List.append_nil]
    split
    · rw [execute_of_none hw]
      rfl
    · rfl

/-- Finished shares stay finished along every schedule. -/
theorem IsLive.isBefore_run (hp : p.Suits task) (hc : c.IsLive p task workers)
    {schedule : List (Nat × JoinOrder)}
    (hschedule : ∀ entry ∈ schedule, entry.2.IsPermutation task.query.nrTables) :
    c.shared.progress.IsBefore (c.run task schedule).shared.progress workers := by
  induction schedule generalizing c with
  | nil => exact .refl _ _
  | cons entry rest ih =>
    obtain ⟨hlive, hbefore⟩ := hc.execute hp entry.1 (hschedule entry List.mem_cons_self)
    have hrest := ih hlive
      fun entry' hentry' => hschedule entry' (List.mem_cons_of_mem _ hentry')
    exact hbefore.trans hrest

/-- **While its share is not finished, no episode of a worker exhausts an order.** -/
theorem IsLive.nrUnfinished_eq_count (hp : p.Suits task) (hc : c.IsLive p task workers)
    (hbudget : 0 < task.budget) (hempty : task.hasEmptyTable = false) {number : Nat}
    (hnumber : number < c.workers.size) {order : JoinOrder}
    (horder : order.IsPermutation task.query.nrTables) {schedule : List (Nat × JoinOrder)}
    (hschedule : ∀ entry ∈ schedule, entry.2.IsPermutation task.query.nrTables)
    (hshare : (c.run task schedule).shared.progress.isShareFinished order.leftmost number = false) :
    nrUnfinished (c.episodesOf task number order schedule) = schedule.count (number, order) := by
  induction schedule generalizing c with
  | nil => rfl
  | cons entry rest ih =>
    have hentry := hschedule entry List.mem_cons_self
    have hrest : ∀ entry ∈ rest, entry.2.IsPermutation task.query.nrTables :=
      fun entry' hentry' => hschedule entry' (List.mem_cons_of_mem _ hentry')
    obtain ⟨hlive, hbefore⟩ := hc.execute hp entry.1 hentry
    have hw := Array.getElem?_eq_getElem hnumber
    have hworker := (hc.worker number _ hw).number_lt
    rw [hc.number number _ hw] at hworker
    -- A share that is finished now or after the episode would be finished in the end.
    have hunfinished {progress : Progress}
        (hbefore : progress.IsBefore (c.run task (entry :: rest)).shared.progress workers) :
        progress.isShareFinished order.leftmost number = false :=
      Bool.eq_false_iff.2 fun hfinished =>
        absurd ((hbefore.isShareFinished _ _ hworker hfinished).symm.trans hshare) nofun
    have hafter := hlive.isBefore_run hp hrest
    rw [nrUnfinished_episodesOf_cons, List.count_cons, Nat.add_comm,
      ih hlive (by rwa [size_execute]) hrest hshare]
    congr 1
    by_cases hsame : entry = (number, order)
    · subst hsame
      obtain ⟨before, after, outcome, -, -, hexecute, -, -, hend⟩ :=
        hc.execute_advances hp hw horder hbudget hempty (hunfinished (hbefore.trans hafter))
      rcases hend with ⟨-, hfinished⟩ | ⟨hexhausted, -⟩
      · exact absurd (hfinished.symm.trans (hunfinished hafter)) nofun
      · rw [episodesOf, episodesOf, if_pos rfl, List.append_nil, hexecute, beq_self_eq_true,
          if_pos rfl]
        simp [nrUnfinished, hexhausted]
    · rw [episodesOf, episodesOf, if_neg hsame, List.append_nil, if_neg (by simpa using hsame)]
      rfl

section Query

variable {q : Query} (hvalid : q.validate = .ok ())
  (hrows : ∀ table < q.nrTables, 0 < q.cardinality table) {catalog : Catalog}
  (hcatalog : catalog.IsBuiltFor q) (masks : Array (Option RowMask)) (config : Config)
  (workers : Nat) {schedule : List (Nat × JoinOrder)}
  (hschedule : ∀ entry ∈ schedule, entry.2.IsPermutation q.nrTables)

include hvalid hrows hcatalog hschedule

/-- **A worker runs fewer episodes of an order that do not exhaust it than there are tuples.** -/
theorem nrUnfinished_lt (number : Nat) {order : JoinOrder}
    (horder : order.IsPermutation q.nrTables) :
    nrUnfinished ((start (.ofQuery q masks config) catalog workers).episodesOf
      (.ofQuery q masks config) number order schedule) < q.nrTuples := by
  have hp := suits_planner hvalid hcatalog masks config workers
  have hstart : (start (.ofQuery q masks config) catalog workers).IsLive _ _ _ :=
    isLive_start (Query.isValid_of_validate hvalid)
  cases hw : (start (.ofQuery q masks config) catalog workers).workers[number]? with
  | none =>
    rw [episodesOf_of_none hw]
    exact Nat.zero_lt_of_lt (Checkpoint.card_tuplesAhead_start_lt horder hrows)
  | some w =>
    -- Each unfinished episode leaves fewer tuples ahead of the worker, which starts before all of
    -- them.
    have hle := hstart.nrUnfinished_le hp hrows
      (Nat.lt_of_lt_of_le Nat.one_pos (Nat.le_max_right _ _)) hw order hschedule
    obtain ⟨-, rfl⟩ := getElem?_start_workers _ catalog workers hw
    rw [Worker.reached_start] at hle
    exact Nat.lt_of_le_of_lt hle (Checkpoint.card_tuplesAhead_start_lt horder hrows)

omit hvalid hcatalog hschedule in
/-- Without empty tables the task knows of none. -/
theorem hasEmptyTable_ofQuery : (Task.ofQuery q masks config).hasEmptyTable = false := by
  refine Bool.eq_false_iff.2 fun hempty => ?_
  obtain ⟨table, ht, hzero⟩ := (Task.knowsEmptyTables_ofQuery q masks config).1 hempty
  exact absurd (hrows table ht) (Nat.not_lt.2 hzero.le)

/-- **Enough episodes of one order finish the join**, whatever other episodes are run in between. -/
theorem isFinished_run {order : JoinOrder} (horder : order.IsPermutation q.nrTables)
    (hcount : ∀ number < (Progress.start q.rowCounts workers).workers,
      q.nrTuples ≤ schedule.count (number, order)) :
    ((start (.ofQuery q masks config) catalog workers).run (.ofQuery q masks config)
      schedule).shared.progress.isFinished = true := by
  have hq := Query.isValid_of_validate hvalid
  have hp := suits_planner hvalid hcatalog masks config workers
  have hstart : (start (.ofQuery q masks config) catalog workers).IsLive _ _ _ := isLive_start hq
  have hfor := (hstart.run hp hschedule).shared.isFor
  refine hfor.isFinished_of_shares (horder.tableAt_lt hq.nrTables_pos) fun number hnumber => ?_
  by_contra hshare
  -- Then no episode of the worker exhausts the order, but only few of them do not.
  have hnumber' : number < (start (.ofQuery q masks config) catalog workers).workers.size := by
    simpa [start, Shared.start] using hnumber
  have hbudget := Nat.lt_of_lt_of_le Nat.one_pos (Nat.le_max_right config.budget.toNat 1)
  have hall := hstart.nrUnfinished_eq_count hp hbudget (hasEmptyTable_ofQuery hrows masks config)
    hnumber' horder hschedule (Bool.eq_false_iff.2 hshare)
  have hlt := nrUnfinished_lt hvalid hrows hcatalog masks config workers hschedule number horder
  rw [hall] at hlt
  exact absurd (hcount number hnumber) (Nat.not_le.2 hlt)

end Query

/-- **Every episode makes progress.**  Whatever episodes the workers of a valid query without empty
tables have run: as long as a worker has not finished its share of the outermost table of an order,
the order is not over for it, and an episode either finishes the share, or spends steps within its
budget and lets the order go on from strictly further ahead.  So a worker runs fewer episodes of an
order that do not exhaust it than there are tuples of rows. -/
theorem episodes_advance {q : Query} (hvalid : q.validate = .ok ())
    (hrows : ∀ table < q.nrTables, 0 < q.cardinality table) {catalog : Catalog}
    (hcatalog : catalog.IsBuiltFor q) (masks : Array (Option RowMask)) (config : Config)
    (workers : Nat) {schedule : List (Nat × JoinOrder)}
    (hschedule : ∀ entry ∈ schedule, entry.2.IsPermutation q.nrTables) :
    let task := Task.ofQuery q masks config
    let c := (start task catalog workers).run task schedule
    (∀ number < c.workers.size, ∀ order : JoinOrder, order.IsPermutation q.nrTables →
      c.shared.progress.isShareFinished order.leftmost number = false →
      c.Advances task number order) ∧
    ∀ number order, order.IsPermutation q.nrTables →
      nrUnfinished ((start task catalog workers).episodesOf task number order schedule) <
        q.nrTuples := by
  intro task c
  have hp : (planner task catalog workers).Suits task :=
    suits_planner hvalid hcatalog masks config workers
  have hstart : (start task catalog workers).IsLive _ task _ :=
    isLive_start (Query.isValid_of_validate hvalid)
  have hbudget : 0 < task.budget := Nat.lt_of_lt_of_le Nat.one_pos (Nat.le_max_right _ _)
  -- The crew is live after any run, so its next episode advances.
  refine ⟨fun number hnumber order horder hshare => ?_, fun number order horder => ?_⟩
  · exact (hstart.run hp hschedule).execute_advances hp (Array.getElem?_eq_getElem hnumber) horder
      hbudget (hasEmptyTable_ofQuery hrows masks config) hshare
  · exact nrUnfinished_lt hvalid hrows hcatalog masks config workers hschedule number horder

/-- Two workers whose episodes have one step: the first episode makes progress, and a worker has
fewer unfinished episodes than there are tuples of rows. -/
theorem episodes_advance_sample :
    let c := start .stepwise .sample 2
    c.shared.progress.isShareFinished JoinOrder.sample.leftmost 0 = false ∧
    c.Advances .stepwise 0 .sample ∧
    nrUnfinished (c.episodesOf .stepwise 0 .sample
      (List.replicate 20 [(0, .sample), (1, .reversed)]).flatten) < 15 := by
  intro c
  have hrows : ∀ table < Query.sample.nrTables, 0 < Query.sample.cardinality table := by decide
  have hshare : c.shared.progress.isShareFinished JoinOrder.sample.leftmost 0 = false := by
    decide +kernel
  have hschedule : ∀ entry ∈ (List.replicate 20 [(0, JoinOrder.sample), (1, .reversed)]).flatten,
      entry.2.IsPermutation Query.sample.nrTables := by decide
  have hnil : ∀ entry ∈ ([] : List (Nat × JoinOrder)),
      entry.2.IsPermutation Query.sample.nrTables :=
    fun _ hentry => absurd hentry List.not_mem_nil
  have hworker : 0 < c.workers.size := by decide +kernel
  -- Progress is claimed before any episode, the bound after all of them.
  have hfirst := (episodes_advance Query.validate_sample hrows Catalog.isBuiltFor_sample
    Query.sampleMasks { budget := 1 } 2 hnil).1 0 hworker .sample JoinOrder.isPermutation_sample
    hshare
  have hcount := (episodes_advance Query.validate_sample hrows Catalog.isBuiltFor_sample
    Query.sampleMasks { budget := 1 } 2 hschedule).2 0 .sample JoinOrder.isPermutation_sample
  exact ⟨hshare, hfirst, hcount⟩

end Crew

end AdaptiveJoin
