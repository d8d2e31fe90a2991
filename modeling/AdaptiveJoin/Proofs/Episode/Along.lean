import AdaptiveJoin.Proofs.Episode.Reached

/-!
# A worker that runs a single order

A worker that runs one order only always goes on from where its last episode has stopped.
`Worker.IsAlong` describes it: its results are the results of its share before that point, each
found by one episode, and every episode that has not exhausted the order has moved the point ahead.

* `Worker.IsAlong.continueFrom`: the worker goes on from the point that it has reached.
* `Worker.IsAlong.finish`: an episode moves the point ahead and adds the results in between.
-/

namespace AdaptiveJoin

/-! ### Sets of results -/

/-- A set has as many members as a list without repetitions that lists it. -/
theorem size_eq_length {results : Std.HashSet Tuple} {tuples : List Tuple} (hnodup : tuples.Nodup)
    (h : ∀ tuple, tuple ∈ results ↔ tuple ∈ tuples) : results.size = tuples.length := by
  have hdistinct : results.toList.Nodup :=
    Std.HashSet.distinct_toList.imp fun hne heq => by simp [heq] at hne
  rw [← Std.HashSet.length_toList]
  refine ((List.perm_ext_iff_of_nodup hdistinct hnodup).2 fun tuple => ?_).length_eq
  rw [Std.HashSet.mem_toList, h]

theorem size_foldl_insert (tuples : List Tuple) (results : Std.HashSet Tuple)
    (hnodup : tuples.Nodup) (hnew : ∀ x ∈ tuples, x ∉ results) :
    (tuples.foldl (fun results tuple => results.insert tuple) results).size =
      results.size + tuples.length := by
  induction tuples generalizing results with
  | nil => rfl
  | cons tuple tuples ih =>
    obtain ⟨hnot, hnodup⟩ := List.nodup_cons.1 hnodup
    rw [List.foldl_cons, ih _ hnodup fun x hx hmem => ?_, Std.HashSet.size_insert,
      if_neg (hnew tuple List.mem_cons_self), List.length_cons]
    · omega
    · rw [Std.HashSet.mem_insert, beq_iff_eq] at hmem
      rcases hmem with rfl | hmem
      · exact hnot hx
      · exact hnew x (List.mem_cons_of_mem _ hx) hmem

/-- What a worker that runs a single order has achieved; `outcomes` are those of its episodes. -/
structure Worker.IsAlong (w : Worker) (q : Query) (progress : Progress) (workers : Nat)
    (o : JoinOrder) (outcomes : List Outcome) : Prop where
  size : (w.reached q o).tuple.size = q.nrTables
  row_le : ∀ table < q.nrTables, (w.reached q o).tuple.row table ≤ q.cardinality table
  leftmost_lt : (w.reached q o).finished = false → 0 < q.cardinality o.leftmost →
    (w.reached q o).tuple.row o.leftmost < q.cardinality o.leftmost
  /-- The initial parts offer no other checkpoint. -/
  paths : ∀ k, 0 < k → k < o.size → ∀ rows, w.memory.paths[o.toList.take k]? = some rows →
    rows = ((w.reached q o).rows o).take k
  offset_le : (w.reached q o).finished = false → w.number < q.cardinality o.leftmost →
    progress.offset o.leftmost w.number ≤ (w.reached q o).tuple.row o.leftmost
  mem_results : ∀ tuple, tuple ∈ w.results ↔
    q.IsShareResult workers w.number o.leftmost tuple ∧
      ((w.reached q o).finished = true ∨ o.rowsOf tuple < o.rowsOf (w.reached q o).tuple)
  sum_nrResults : (outcomes.map Outcome.nrResults).sum = w.results.size
  of_exhausted : (∃ outcome ∈ outcomes, outcome.exhausted = true) →
    ∀ tuple, q.IsShareResult workers w.number o.leftmost tuple → tuple ∈ w.results
  /-- Every episode that has not exhausted the order has moved ahead. -/
  length_le : (outcomes.filter fun outcome => !outcome.exhausted).length ≤
    rank (q.bounds o) ((w.reached q o).rows o)

namespace Worker

variable {w : Worker} {q : Query} {progress : Progress} {workers : Nat} {o : JoinOrder}
  {outcomes : List Outcome}

/-- A worker that has run nothing. -/
theorem isAlong_start (task : Task) (number : Nat) {cardinalities : Array Nat} {count : Nat}
    (hworkers : (Progress.start cardinalities count).IsFor task.query workers)
    (hnumber : number < workers) :
    (Worker.start task number).IsAlong task.query (Progress.start cardinalities count) workers o
      [] := by
  have hreached := reached_start task number task.query o
  refine ⟨?_, fun table _ => ?_, fun _ hpos => ?_, ?_, ?_, fun tuple => ?_, rfl, ?_, Nat.zero_le _⟩
  · simp [hreached, Checkpoint.start]
  · rw [hreached, Checkpoint.row_start]
    exact Nat.zero_le _
  · rw [hreached, Checkpoint.row_start]
    exact hpos
  · intro k _ _ rows hrows
    exact absurd hrows (by simp [Worker.start, Memory.start])
  · intro _ hlt
    -- The share of the worker has rows, so it starts at the first of them.
    have hn : (Worker.start task number).number = number := rfl
    rw [hn] at hlt ⊢
    rw [Progress.offset_start _ _ _ (hworkers.workers_eq.symm ▸ hnumber), hworkers.cardinality_eq,
      Progress.initialOffset, if_neg (by omega)]
    omega
  · rw [hreached]
    refine ⟨fun hmem => absurd hmem (by simp [Worker.start]), ?_⟩
    rintro ⟨-, hfinished | hlt⟩
    · exact absurd hfinished (by simp [Checkpoint.start])
    · -- Nothing lies before the first rows.
      obtain ⟨k, -, -, hlt⟩ := JoinOrder.rowsOf_lt_iff.1 hlt
      rw [Checkpoint.row_start] at hlt
      exact absurd hlt (Nat.not_lt_zero _)
  · rintro ⟨outcome, hmem, -⟩
    exact absurd hmem (by simp)

/-- What a worker has achieved depends on the offset of its share only. -/
theorem IsAlong.congr {progress' : Progress} (h : w.IsAlong q progress workers o outcomes)
    (hoffset : progress'.offset o.leftmost w.number = progress.offset o.leftmost w.number) :
    w.IsAlong q progress' workers o outcomes :=
  { h with offset_le := hoffset ▸ h.offset_le }

/-! ### Going on -/

section GoOn

variable (h : w.IsAlong q progress workers o outcomes) (hp : progress.IsFor q workers)
  (ho : o.IsPermutation q.nrTables) (hq : 0 < q.nrTables)

include h hp ho hq

/-- An initial part offers nothing that is ahead of what has been reached. -/
theorem IsAlong.checkpointOn? (hrows : 0 < q.cardinality o.leftmost)
    (hfinished : (w.reached q o).finished = false) {k : Nat} (hpos : 0 < k) (hk : k < o.size)
    {c : Checkpoint} (hc : w.memory.checkpointOn? progress o k = some c) :
    c.finished = false ∧ c.tuple.size = q.nrTables ∧
      o.rowsOf c.tuple ≤ o.rowsOf (w.reached q o).tuple := by
  unfold Memory.checkpointOn? at hc
  rw [Option.map_eq_some_iff] at hc
  obtain ⟨rows, hrows', rfl⟩ := hc
  -- What is remembered of an initial part is what the order itself has reached there.
  obtain rfl := h.paths k hpos hk rows hrows'
  have hnodup : (o.toList.take k).Nodup := ho.nodup.sublist (List.take_sublist _ _)
  have hlt : ∀ t ∈ o.toList.take k, t < progress.nrTables := fun t ht =>
    hp.nrTables_eq ▸ ho.mem_iff.1 (List.mem_of_mem_take ht)
  have hlen : (((w.reached q o).rows o).take k).length = (o.toList.take k).length := by
    simp [Checkpoint.rows]
  have hmap := Memory.map_row_checkpointAt hnodup hlt hlen
  unfold Checkpoint.rows at hmap
  rw [← List.map_take, List.map_inj_left] at hmap
  obtain ⟨rest, hrest⟩ := exists_take_eq_cons (ho.size_eq ▸ hq) hpos
  refine ⟨?_, Memory.size_checkpointAt.trans hp.nrTables_eq, ?_⟩
  · rw [Memory.finished_checkpointAt, decide_eq_false_iff_not, Checkpoint.rows, ← List.map_take,
      hrest, List.map_cons, List.headD_cons, List.headD_cons, hp.cardinality_eq]
    have := h.leftmost_lt hfinished hrows
    omega
  · -- The tables of the initial part have the rows reached, and the others their first rows.
    apply JoinOrder.rowsOf_le_of_forall
    intro k' hk' _
    unfold Checkpoint.rows
    rw [← List.map_take]
    by_cases hmem : o.tableAt k' ∈ o.toList.take k
    · exact (hmap _ hmem).le
    · rw [Memory.row_checkpointAt_of_not_mem hmem]
      exact Nat.zero_le _

/-- **The worker goes on from where it has stopped.** -/
theorem IsAlong.continueFrom (hrows : 0 < q.cardinality o.leftmost) :
    (w.memory.continueFrom progress o).finished = (w.reached q o).finished ∧
      ((w.reached q o).finished = false →
        (w.memory.continueFrom progress o).tuple = (w.reached q o).tuple) := by
  obtain ⟨hown, -⟩ := w.memory.isAheadOf_continueFrom progress o
  rw [ownCheckpoint_eq hp, Bool.eq_false_iff, ne_eq, Checkpoint.isAheadOf_iff, not_or] at hown
  cases hfinished : (w.reached q o).finished with
  | true =>
    refine ⟨?_, fun heq => absurd heq (by decide)⟩
    -- An order that is over is ahead of all that its initial parts can offer.
    by_contra hnot
    exact hown.1 ⟨hfinished, Bool.eq_false_iff.2 hnot⟩
  | false =>
    rcases w.memory.continueFrom_mem progress o with heq | ⟨k, hpos, hk, hoffer⟩
    · rw [heq, ownCheckpoint_eq hp]
      exact ⟨hfinished, fun _ => rfl⟩
    · obtain ⟨hc, hsize, hle⟩ := h.checkpointOn? hp ho hq hrows hfinished hpos hk hoffer
      refine ⟨hc, fun _ => ?_⟩
      -- The offer is not ahead of the rows reached and not behind them, so it agrees with them.
      have hge : o.rowsOf (w.reached q o).tuple ≤
          o.rowsOf (w.memory.continueFrom progress o).tuple :=
        not_lt.1 fun hlt => hown.2 ⟨hfinished.trans hc.symm, hlt⟩
      apply ho.eq_of_agree hsize h.size
      rw [← ho.size_eq]
      exact JoinOrder.rowsOf_eq_iff.1 (le_antisymm hle hge)

/-- **A worker that has nothing to do has found all results of its share.** -/
theorem IsAlong.mem_results_of_isShareFinished (hnumber : w.number < workers)
    (hdone : (w.reached q o).finished = true ∨ progress.isShareFinished o.leftmost w.number = true)
    {tuple : Tuple} (hr : q.IsShareResult workers w.number o.leftmost tuple) :
    tuple ∈ w.results := by
  have hrow := hr.1.1.2 o.leftmost (ho.tableAt_lt hq)
  have hmod := Nat.mod_le (tuple.row o.leftmost) workers
  have hshare := hr.2
  rw [h.mem_results]
  refine ⟨hr, ?_⟩
  rcases hdone with hfinished | hfinished
  · exact Or.inl hfinished
  · by_contra hnot
    rw [not_or, Bool.not_eq_true] at hnot
    -- The share is finished, so its offset is the end of the table.
    rw [hp.isShareFinished_iff _ (hp.nrTables_eq ▸ ho.tableAt_lt hq) _
      (hp.workers_eq ▸ hnumber), hp.cardinality_eq] at hfinished
    have hle := h.offset_le hnot.1 (by omega)
    have hlt := h.leftmost_lt hnot.1 (by omega)
    omega

end GoOn

/-- **A worker that does not begin an episode has found all results of its share.** -/
theorem IsAlong.mem_results_of_begin? {task : Task}
    (h : w.IsAlong task.query progress workers o outcomes) (hp : progress.IsFor task.query workers)
    (ho : o.IsPermutation task.query.nrTables) (hq : 0 < task.query.nrTables)
    (hempty : task.KnowsEmptyTables) (hnumber : w.number < workers) {outcome : Outcome}
    (hbegin : w.begin? task progress o = .error outcome) {tuple : Tuple}
    (hr : task.query.IsShareResult workers w.number o.leftmost tuple) : tuple ∈ w.results := by
  have hpos : ∀ table < task.query.nrTables, 0 < task.query.cardinality table :=
    fun table ht => Nat.zero_lt_of_lt (hr.1.1.2 table ht)
  refine h.mem_results_of_isShareFinished hp ho hq hnumber ?_ hr
  obtain ⟨-, -, hwhy | hwhy | hwhy⟩ := begin?_eq_error hbegin
  · exact absurd hwhy (by simp [ho.isEmpty_eq_false hq])
  · obtain ⟨table, ht, hzero⟩ := hempty.1 hwhy
    exact absurd (hpos table ht) (by omega)
  · rwa [(h.continueFrom hp ho hq (hpos _ (ho.tableAt_lt hq))).1] at hwhy

/-- An episode that has nothing to do. -/
theorem IsAlong.idle (h : w.IsAlong q progress workers o outcomes) {outcome : Outcome}
    (hresults : outcome.nrResults = 0) (hexhausted : outcome.exhausted = true)
    (hall : ∀ tuple, q.IsShareResult workers w.number o.leftmost tuple → tuple ∈ w.results) :
    w.IsAlong q progress workers o (outcomes ++ [outcome]) :=
  { h with
    sum_nrResults := by
      rw [List.map_append, List.sum_append, h.sum_nrResults, List.map_singleton,
        List.sum_singleton, hresults, Nat.add_zero]
    of_exhausted := fun _ => hall
    length_le := by
      rw [List.filter_append, List.length_append, List.filter_singleton, hexhausted]
      exact h.length_le }

/-! ### One more episode -/

section Finish

variable {e : Episode} {p : Planner} {c : Checkpoint} (hwell : e.IsWellFormed p)
  (h : w.IsAlong e.task.query progress e.workers e.order outcomes)
  (hc : c.tuple = (w.reached e.task.query e.order).tuple)

include hwell h hc

theorem IsAlong.fits : e.Fits ⟨c.tuple, w.cursors, #[], 0⟩ := by
  refine ⟨hc ▸ h.size, fun table ht => ?_⟩
  rw [hwell.cardinality_eq table ht]
  show c.tuple.row table ≤ _
  rw [hc]
  exact h.row_le table ht

variable (hunfinished : (w.reached e.task.query e.order).finished = false)
  (hrows : 0 < e.task.query.cardinality e.order.leftmost)

include hunfinished hrows

/-- An episode moves ahead. -/
theorem IsAlong.rowsOf_lt_stop (hbudget : 0 < e.task.budget) :
    e.order.rowsOf (w.reached e.task.query e.order).tuple <
      e.order.rowsOf (e.run c.tuple w.cursors).2.tuple := by
  have hfits := h.fits hwell hc
  cases hend : (e.run c.tuple w.cursors).1 with
  | some pos => exact hc ▸ Episode.run_ahead hwell.isAscending hfits hbudget hend
  | none =>
    refine JoinOrder.rowsOf_lt_iff.2 ⟨0, hwell.size_order ▸ hwell.nrTables_pos,
      e.order.agree_zero _ _, ?_⟩
    have hrow := Episode.run_row_leftmost hwell.isAscending hfits hend
    rw [hwell.cardinality_eq _ (hwell.tableAt_lt hwell.nrTables_pos)] at hrow
    have hlt := h.leftmost_lt hunfinished hrows
    show _ < (e.run c.tuple w.cursors).2.row (e.tableAt 0)
    rw [hrow]
    exact hlt

/-- The initial parts follow. -/
theorem IsAlong.paths_finish (hbudget : 0 < e.task.budget) {k : Nat} (hpos : 0 < k)
    (hk : k < e.order.size) {rows : List Nat}
    (hpath : (w.finish e progress c).2.1.memory.paths[e.order.toList.take k]? = some rows) :
    rows = ((Episode.stop (e.run c.tuple w.cursors)).rows e.order).take k := by
  have hlt := h.rowsOf_lt_stop hwell hc hunfinished hrows hbudget
  rw [finish_memory] at hpath
  have hnew := Memory.record_paths_not_lt hpos hk hpath
  rcases Memory.record_paths hpath with hold | ⟨k', -, hk', htake, rfl⟩
  · obtain rfl := h.paths k hpos hk rows hold
    refine le_antisymm (not_lt.1 fun hgt => ?_) (not_lt.1 hnew)
    -- The point has moved ahead, so its first rows have not moved back.
    obtain ⟨j, -, hj, hagree, hrow⟩ := JoinOrder.take_rowsOf_lt_iff.1 hgt
    exact lt_asymm hlt (JoinOrder.rowsOf_lt_iff.2 ⟨j, hj, hagree, hrow⟩)
  · have hlen := congrArg List.length htake
    have hsize : e.order.toList.length = e.order.size := by
      simp [JoinOrder.toList, JoinOrder.size]
    rw [List.length_take, List.length_take] at hlen
    rw [show k' = k by omega]

variable (hprogress : progress.IsFor e.task.query e.workers) (hworker : e.worker = w.number)
  (hsnapshot : e.snapshot = progress.snapshot)
  (hdeeper : ∀ table < e.task.query.nrTables, table ≠ e.order.leftmost → ∀ share < e.workers,
    progress.offset table share = Progress.initialOffset (e.task.query.cardinality table) share)
  (hmasks : e.task.HasExactMasks)

include hprogress hworker hsnapshot hdeeper hmasks

omit hc hrows hprogress in
/-- All results of the share from the point on are left. -/
theorem IsAlong.isTarget {tuple : Tuple}
    (hr : e.task.query.IsShareResult e.workers w.number e.order.leftmost tuple)
    (hle : e.order.rowsOf (w.reached e.task.query e.order).tuple ≤ e.order.rowsOf tuple) :
    e.IsTarget tuple := by
  apply Episode.isTarget_of_isResult hwell hmasks hr.1 (hworker ▸ hr.2)
  intro pos hpos
  have ht := hwell.tableAt_lt hpos
  have hrow := hr.1.1.2 _ ht
  have hmod := Nat.mod_le (tuple.row (e.tableAt pos)) e.workers
  have hshare := Nat.mod_lt (tuple.row (e.tableAt pos)) (show 0 < e.workers by
    have := hwell.worker_lt
    omega)
  rw [hwell.covers_eq, hsnapshot, Progress.shareOffset_snapshot, decide_eq_false_iff_not]
  -- Only the outermost table has offsets that have moved, and these follow the rows reached.
  by_cases heq : e.tableAt pos = e.order.leftmost
  · rw [heq] at hrow hmod ⊢
    rw [hr.2] at hmod ⊢
    have hoffset := h.offset_le hunfinished (by omega)
    have hleft : (w.reached e.task.query e.order).tuple.row e.order.leftmost ≤
        tuple.row e.order.leftmost := JoinOrder.row_le_of_rowsOf_le hle
      (hwell.size_order ▸ hwell.nrTables_pos) (e.order.agree_zero _ _)
    omega
  · rw [hdeeper _ ht heq _ hshare, Progress.initialOffset, if_neg (by omega)]
    omega

omit hrows hprogress in
/-- What an episode emits are the results of the share from the point reached to the next one. -/
theorem IsAlong.mem_emitted {tuple : Tuple} :
    tuple ∈ (e.run c.tuple w.cursors).2.emitted ↔
      e.task.query.IsShareResult e.workers w.number e.order.leftmost tuple ∧
        e.order.rowsOf (w.reached e.task.query e.order).tuple ≤ e.order.rowsOf tuple ∧
        ((Episode.stop (e.run c.tuple w.cursors)).finished = true ∨
          e.order.rowsOf tuple < e.order.rowsOf (e.run c.tuple w.cursors).2.tuple) := by
  have ht := Episode.run_trace hwell (h.fits hwell hc)
  rw [← hc]
  constructor
  · intro hmem
    -- What is emitted is accepted, and lies between the start and the stop.
    have haccepted := ht.isAccepted tuple hmem
    refine ⟨⟨haccepted.isResult hwell hmasks, hworker ▸ haccepted.inShare⟩,
      ht.le_emitted tuple hmem, ?_⟩
    cases hend : (e.run c.tuple w.cursors).1 with
    | none => exact Or.inl (by rw [Episode.stop, hend]; rfl)
    | some pos => exact Or.inr (ht.lt pos hend tuple hmem)
  · rintro ⟨hr, hle, hbefore⟩
    -- No row of the tuple is covered, so the loops do not skip it.
    have htarget := h.isTarget hwell hunfinished hworker hsnapshot hdeeper hmasks hr
      (hc ▸ hle)
    rcases ht.complete tuple htarget hle with hmem | ⟨pos, hend, hge⟩
    · exact hmem
    · rcases hbefore with hfinished | hlt
      · unfold Episode.stop at hfinished
        rw [hend] at hfinished
        exact absurd hfinished (by simp)
      · exact absurd hlt (not_lt.2 hge)

omit hprogress in
/-- The worker has then found the results of its share before the next point. -/
theorem IsAlong.mem_results_finish (hbudget : 0 < e.task.budget) {tuple : Tuple} :
    tuple ∈ (w.finish e progress c).2.1.results ↔
      e.task.query.IsShareResult e.workers w.number e.order.leftmost tuple ∧
        ((Episode.stop (e.run c.tuple w.cursors)).finished = true ∨
          e.order.rowsOf tuple < e.order.rowsOf (e.run c.tuple w.cursors).2.tuple) := by
  have hahead := h.rowsOf_lt_stop hwell hc hunfinished hrows hbudget
  rw [mem_finish_results, h.mem_results, h.mem_emitted hwell hc hunfinished hworker hsnapshot
    hdeeper hmasks, ← and_or_left, hunfinished]
  refine and_congr_right fun _ => ⟨?_, fun hbefore => ?_⟩
  · -- What was found before lies in front of the row the worker had reached, and so of the stop.
    rintro ((hfalse | hlt) | ⟨-, hbefore⟩)
    · exact absurd hfalse (by decide)
    · exact Or.inr (hlt.trans hahead)
    · exact hbefore
  · -- A result in front of the stop was found before or by this episode.
    by_cases hold : e.order.rowsOf tuple < e.order.rowsOf (w.reached e.task.query e.order).tuple
    · exact Or.inl (Or.inr hold)
    · exact Or.inr ⟨not_lt.1 hold, hbefore⟩

omit hrows hprogress hworker hsnapshot hdeeper hmasks in
/-- What an episode emits is new, and so all of it counts. -/
theorem IsAlong.size_results_finish :
    (w.finish e progress c).2.1.results.size =
      w.results.size + (w.finish e progress c).1.nrResults := by
  have ht := Episode.run_trace hwell (h.fits hwell hc)
  have hnodup : (e.run c.tuple w.cursors).2.emitted.toList.Nodup :=
    ht.sorted.imp fun hlt heq => absurd (heq ▸ hlt) (lt_irrefl _)
  have hnew : ∀ x ∈ (e.run c.tuple w.cursors).2.emitted.toList, x ∉ w.results := by
    intro x hx hmem
    have hle := ht.le_emitted x (Array.mem_toList_iff.1 hx)
    rw [h.mem_results, hunfinished] at hmem
    rcases hmem.2 with hfalse | hlt
    · exact absurd hfalse (by decide)
    · exact absurd (hc ▸ hle) (not_le.2 hlt)
  rw [finish_results, ← Array.foldl_toList, size_foldl_insert _ _ hnodup hnew,
    (finish_outcome w e progress c).2.1, Array.length_toList]

omit hunfinished hrows hprogress hworker hsnapshot hdeeper hmasks in
/-- The next point lies within the tables, and before the end of the outermost one unless the order
is exhausted. -/
theorem IsAlong.row_stop :
    (∀ table < e.task.query.nrTables, (Episode.stop (e.run c.tuple w.cursors)).tuple.row table ≤
      e.task.query.cardinality table) ∧
    ((Episode.stop (e.run c.tuple w.cursors)).finished = false →
      (Episode.stop (e.run c.tuple w.cursors)).tuple.row e.order.leftmost <
        e.task.query.cardinality e.order.leftmost) := by
  have ht := Episode.run_trace hwell (h.fits hwell hc)
  constructor
  · intro table htable
    rw [← hwell.cardinality_eq table htable]
    exact ht.fits.row_le table htable
  · intro hstop
    cases hend : (e.run c.tuple w.cursors).1 with
    | none =>
      -- An episode that comes to no position has finished.
      unfold Episode.stop at hstop
      rw [hend] at hstop
      exact absurd hstop (by simp)
    | some pos =>
      rw [← hwell.cardinality_eq e.order.leftmost (hwell.tableAt_lt hwell.nrTables_pos)]
      exact (ht.isWithin pos hend).leftmost_lt

omit hworker hsnapshot hdeeper hmasks in
/-- The published offset is the row at which the episode has stopped. -/
theorem IsAlong.offset_finish_le (hbudget : 0 < e.task.budget) (hnumber : w.number < e.workers)
    (hmemory : w.memory.worker = w.number)
    (hstop : (Episode.stop (e.run c.tuple w.cursors)).finished = false)
    (hshare : w.number < e.task.query.cardinality e.order.leftmost) :
    (w.finish e progress c).2.2.offset e.order.leftmost w.number ≤
      (e.run c.tuple w.cursors).2.tuple.row e.order.leftmost := by
  have hahead := h.rowsOf_lt_stop hwell hc hunfinished hrows hbudget
  have hstart := h.offset_le hunfinished hshare
  -- The first row of the order does not go back while the tuple goes forward.
  have hmono : (w.reached e.task.query e.order).tuple.row e.order.leftmost ≤
      (e.run c.tuple w.cursors).2.tuple.row e.order.leftmost :=
    JoinOrder.row_le_of_rowsOf_le hahead.le (hwell.size_order ▸ hwell.nrTables_pos)
      (e.order.agree_zero _ _)
  rw [finish_progress, hmemory, hprogress.offset_publish
    (hprogress.nrTables_eq ▸ hwell.tableAt_lt hwell.nrTables_pos)
    (hprogress.workers_eq ▸ hnumber) _ _ (hprogress.workers_eq ▸ hnumber), if_pos ⟨rfl, rfl⟩,
    if_neg (by rw [hstop]; decide)]
  omega

/-- **An episode moves the point ahead and adds the results in between, each once.** -/
theorem IsAlong.finish (hbudget : 0 < e.task.budget) (hnumber : w.number < e.workers)
    (hmemory : w.memory.worker = w.number) :
    (w.finish e progress c).2.1.IsAlong e.task.query (w.finish e progress c).2.2 e.workers e.order
      (outcomes ++ [(w.finish e progress c).1]) := by
  have hreached : (w.finish e progress c).2.1.reached e.task.query e.order =
      Episode.stop (e.run c.tuple w.cursors) :=
    reached_finish hwell.isAscending (h.fits hwell hc) hunfinished (by rw [hc])
  obtain ⟨hrow_le, hlt⟩ := h.row_stop hwell hc
  refine ⟨?_, ?_, ?_, fun k hpos hk rows hpath => ?_, fun hstop hshare => ?_, fun tuple => ?_, ?_,
    ?_, ?_⟩
  · rw [hreached]
    exact (Episode.run_trace hwell (h.fits hwell hc)).fits.size
  · rw [hreached]
    exact hrow_le
  · rw [hreached]
    intro hstop _
    exact hlt hstop
  · rw [hreached]
    exact h.paths_finish hwell hc hunfinished hrows hbudget hpos hk hpath
  · rw [hreached] at hstop ⊢
    exact h.offset_finish_le hwell hc hunfinished hrows hprogress hbudget hnumber hmemory hstop
      hshare
  · rw [hreached]
    exact h.mem_results_finish hwell hc hunfinished hrows hworker hsnapshot hdeeper hmasks hbudget
  · rw [List.map_append, List.sum_append, h.sum_nrResults, List.map_singleton, List.sum_singleton,
      h.size_results_finish hwell hc hunfinished]
  · -- The order has been exhausted before, or in this episode.
    rintro ⟨outcome, hmem, hexhausted⟩ tuple hr
    rcases List.mem_append.1 hmem with hmem | hmem
    · exact mem_finish_results.2 (Or.inl (h.of_exhausted ⟨outcome, hmem, hexhausted⟩ tuple hr))
    · rw [List.mem_singleton] at hmem
      rw [hmem, (finish_outcome w e progress c).1] at hexhausted
      exact (h.mem_results_finish hwell hc hunfinished hrows hworker hsnapshot hdeeper
        hmasks hbudget).2 ⟨hr, Or.inl hexhausted⟩
  · -- The rank of the rows reached grows at least by one.
    have hrank := rank_lt_rank (forall₂_bounds hwell.isPermutation h.row_le)
      (forall₂_bounds hwell.isPermutation hrow_le)
      (h.rowsOf_lt_stop hwell hc hunfinished hrows hbudget)
    rw [hreached, List.filter_append, List.length_append]
    have hone := List.length_filter_le (fun outcome : Outcome => !outcome.exhausted)
      [(w.finish e progress c).1]
    rw [List.length_singleton] at hone
    exact (Nat.add_le_add h.length_le hone).trans hrank

end Finish

end Worker

end AdaptiveJoin
