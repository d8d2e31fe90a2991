import AdaptiveJoin.Proofs.Episode.Candidates

/-!
# The loops only move forward

An episode whose lookups only move forward (`Episode.IsAscending`) moves the rows of its tables
ahead in the order of the loops.  This holds whatever the predicates, the filters and the snapshot
are, and whether or not the lookups find the right rows.

* `Episode.proposeNext_rises` and `Episode.leave_rises`: moving on.
* `Episode.visit_ascent` and `Episode.advance_ascent`: one step, and all steps of an episode.
-/

namespace AdaptiveJoin

namespace Walk

theorem row_foldl_reset (tables : List Nat) (tuple : Tuple) (other : Nat) :
    Tuple.row (tables.foldl (fun t table => t.setIfInBounds table 0) tuple) other =
      if other ∈ tables then 0 else tuple.row other := by
  induction tables generalizing tuple with
  | nil => simp
  | cons table rest ih =>
    rw [List.foldl_cons, ih, Tuple.row_setIfInBounds]
    by_cases hrest : other ∈ rest
    · simp [hrest]
    by_cases heq : table = other
    · subst heq
      by_cases hlt : table < tuple.size
      · simp [hlt]
      · simp [hlt, Tuple.row]
    · simp [hrest, heq, Ne.symm heq]

theorem row_resetRows (w : Walk) (tables : List Nat) (other : Nat) :
    (w.resetRows tables).row other = if other ∈ tables then 0 else w.row other :=
  row_foldl_reset tables w.tuple other

@[simp]
theorem size_resetRows (w : Walk) (tables : List Nat) :
    (w.resetRows tables).tuple.size = w.tuple.size := by
  show (tables.foldl (fun t table => t.setIfInBounds table 0) w.tuple).size = w.tuple.size
  induction tables generalizing w with
  | nil => rfl
  | cons table rest ih =>
    rw [List.foldl_cons]
    exact (ih (w.setRow table 0)).trans (size_setRow w table 0)

end Walk

namespace Episode

/-- An episode runs the loops of a permutation of the tables with lookups that only move forward. -/
structure IsAscending (e : Episode) : Prop where
  isPermutation : e.order.IsPermutation e.task.query.nrTables
  nrTables_pos : 0 < e.task.query.nrTables
  workers_pos : 0 < e.workers
  ascends : ∀ pos < e.task.query.nrTables, ∀ l, e.lookup? pos = some l →
    l.Ascends (e.cardinality (e.tableAt pos))

/-- No row of a walk lies beyond the end of its table. -/
structure Fits (e : Episode) (w : Walk) : Prop where
  size : w.tuple.size = e.task.query.nrTables
  row_le : ∀ table < e.task.query.nrTables, w.row table ≤ e.cardinality table

variable {e : Episode} {p : Planner} {pos : Nat}

theorem Enumerates.isAscending (h : e.Enumerates) (hpos : 0 < e.task.query.nrTables) :
    e.IsAscending where
  isPermutation := h.isPermutation
  nrTables_pos := hpos
  workers_pos := Nat.zero_lt_of_lt h.worker_lt
  ascends pos hpos l hl := (h.enumerates pos hpos l hl).ascends

theorem IsWellFormed.isAscending (h : e.IsWellFormed p) : e.IsAscending :=
  h.enumerates.isAscending h.nrTables_pos

namespace IsAscending

theorem size_order (h : e.IsAscending) : e.order.size = e.task.query.nrTables :=
  h.isPermutation.size_eq

theorem tableAt_lt (h : e.IsAscending) (hpos : pos < e.task.query.nrTables) :
    e.tableAt pos < e.task.query.nrTables :=
  h.isPermutation.tableAt_lt hpos

end IsAscending

theorem row_eq_of_agree {w w' : Walk} {k p' : Nat} (hagree : e.order.Agree k w.tuple w'.tuple)
    (hlt : p' < k) : w'.row (e.tableAt p') = w.row (e.tableAt p') :=
  (hagree p' hlt).symm

section Basic

variable (h : e.order.IsPermutation e.task.query.nrTables)

include h

theorem last_eq : e.last = e.task.query.nrTables - 1 := by rw [last, h.size_eq]

theorem mem_deeper_iff {p' : Nat} (hp' : p' < e.task.query.nrTables) :
    e.tableAt p' ∈ e.deeper pos ↔ pos < p' := by
  have hlen : e.order.toList.length = e.task.query.nrTables := by
    rw [← h.size_eq]
    simp [JoinOrder.toList, JoinOrder.size]
  unfold deeper
  rw [List.mem_drop_iff_getElem]
  constructor
  · rintro ⟨i, hi, heq⟩
    -- No table is joined twice, so that the two positions are the same.
    have : e.tableAt (i + (pos + 1)) = e.tableAt p' := by
      have hlt : i + (pos + 1) < e.order.toList.length := by
        rw [JoinOrder.length_toList, h.size_eq]
        omega
      rw [← heq, tableAt, JoinOrder.tableAt_eq_getElem hlt]
      simp only [Nat.add_comm i]
    have := h.tableAt_inj (by omega) hp' this
    omega
  · intro hlt
    refine ⟨p' - (pos + 1), by omega, ?_⟩
    unfold tableAt
    rw [JoinOrder.tableAt_eq_getElem (by rw [JoinOrder.length_toList, h.size_eq]; omega)]
    simp only [show pos + 1 + (p' - (pos + 1)) = p' by omega]

theorem row_resetDeeper (w : Walk) {p' : Nat} (hp' : p' < e.task.query.nrTables) :
    (w.resetRows (e.deeper pos)).row (e.tableAt p') =
      if pos < p' then 0 else w.row (e.tableAt p') := by
  rw [Walk.row_resetRows]
  simp only [mem_deeper_iff h hp']

omit h in
theorem fits_resetDeeper {w : Walk} (hw : e.Fits w) : e.Fits (w.resetRows (e.deeper pos)) := by
  refine ⟨(Walk.size_resetRows w _).trans hw.size, fun table ht => ?_⟩
  rw [Walk.row_resetRows]
  split
  · omega
  · exact hw.row_le table ht

theorem agree_resetDeeper (hpos : pos < e.task.query.nrTables) (w : Walk) :
    e.order.Agree (pos + 1) w.tuple (w.resetRows (e.deeper pos)).tuple := by
  intro p' hp'
  have hrow : (w.resetRows (e.deeper pos)).row (e.tableAt p') = _ :=
    row_resetDeeper h w (show p' < e.task.query.nrTables by omega)
  rw [if_neg (by omega)] at hrow
  exact hrow.symm

omit h in
theorem fits_of_moves {w w' : Walk} {table : Nat} (hw : e.Fits w)
    (hmoves : Walk.Moves table w w') (hrow : w'.row table ≤ e.cardinality table) : e.Fits w' := by
  refine ⟨hmoves.size.trans hw.size, fun t ht => ?_⟩
  by_cases heq : t = table
  · exact heq ▸ hrow
  · rw [hmoves.row t heq]
    exact hw.row_le t ht

/-- Rows that are ahead at some position are ahead, whatever follows. -/
theorem rowsOf_lt_of_row_lt {a b : Tuple} (hpos : pos < e.task.query.nrTables)
    (hagree : e.order.Agree pos a b) (hlt : a.row (e.tableAt pos) < b.row (e.tableAt pos)) :
    e.order.rowsOf a < e.order.rowsOf b :=
  JoinOrder.rowsOf_lt_iff.2 ⟨pos, h.size_eq ▸ hpos, hagree, hlt⟩

/-- Rows that do not go back are not behind. -/
theorem rowsOf_le_of_moves (hpos : pos < e.task.query.nrTables) {w w' : Walk}
    (hmoves : Walk.Moves (e.tableAt pos) w w')
    (hle : w.row (e.tableAt pos) ≤ w'.row (e.tableAt pos)) :
    e.order.rowsOf w.tuple ≤ e.order.rowsOf w'.tuple := by
  apply JoinOrder.rowsOf_le_of_forall
  intro k hk _
  rw [h.size_eq] at hk
  by_cases heq : k = pos
  · exact heq ▸ hle
  · exact (hmoves.row _ fun ht => heq (h.tableAt_inj hk hpos ht)).ge

end Basic

/-! ### Moving one position -/

theorem row_lookUp {l : Lookup} {table : Nat} (hl : l.Ascends (e.cardinality table)) {w : Walk}
    (ht : table < w.tuple.size) (after : Int) :
    (e.lookUp l table after w).row table ≤ e.cardinality table ∧
      ((e.lookUp l table after w).row table < e.cardinality table →
        after < (e.lookUp l table after w).row table) := by
  rw [row_lookUp_self ht]
  cases hnext : (l.next w.tuple after (w.cursors[table]?.getD .fresh)).1 with
  | none => exact ⟨Nat.le_refl _, fun hlt => absurd hlt (Nat.lt_irrefl _)⟩
  | some r =>
    obtain ⟨hafter, hlt⟩ := hl _ _ _ _ hnext
    exact ⟨hlt.le, fun _ => hafter⟩

section Move

variable (h : e.IsAscending) {w : Walk} (hpos : pos < e.task.query.nrTables)

include h hpos

section Size

variable (hsize : w.tuple.size = e.task.query.nrTables)

include hsize

theorem row_moveOn (hlt : w.row (e.tableAt pos) < e.cardinality (e.tableAt pos)) :
    w.row (e.tableAt pos) < (e.moveOn pos w).row (e.tableAt pos) ∧
      (e.moveOn pos w).row (e.tableAt pos) ≤ e.cardinality (e.tableAt pos) := by
  have ht : e.tableAt pos < w.tuple.size := hsize ▸ h.tableAt_lt hpos
  unfold moveOn
  split
  · rename_i l hl
    obtain ⟨hle, hlater⟩ := row_lookUp (h.ascends pos hpos l hl) ht (w.row (e.tableAt pos))
    refine ⟨?_, hle⟩
    rcases Nat.lt_or_eq_of_le hle with hin | heq
    · have := hlater hin
      omega
    · omega
  · rw [Walk.row_setRow_self ht]
    omega

theorem row_skipCovered (rounds : Nat)
    (hle : w.row (e.tableAt pos) ≤ e.cardinality (e.tableAt pos)) :
    w.row (e.tableAt pos) ≤ (e.skipCovered pos rounds w).row (e.tableAt pos) ∧
      (e.skipCovered pos rounds w).row (e.tableAt pos) ≤ e.cardinality (e.tableAt pos) := by
  induction rounds generalizing w with
  | zero => exact ⟨Nat.le_refl _, hle⟩
  | succ rounds ih =>
    rw [skipCovered_succ]
    split
    · rename_i hskip
      rw [Bool.and_eq_true, decide_eq_true_eq] at hskip
      obtain ⟨hlater, hmoved⟩ := row_moveOn h hpos hsize hskip.1
      obtain ⟨hrest, hend⟩ := ih ((e.moves_moveOn pos w).size.trans hsize) hmoved
      exact ⟨by omega, hend⟩
    · exact ⟨Nat.le_refl _, hle⟩

theorem row_skipJoined (hle : w.row (e.tableAt pos) ≤ e.cardinality (e.tableAt pos)) :
    w.row (e.tableAt pos) ≤ (e.skipJoined pos w).row (e.tableAt pos) ∧
      (e.skipJoined pos w).row (e.tableAt pos) ≤ e.cardinality (e.tableAt pos) := by
  unfold skipJoined
  split
  · exact ⟨Nat.le_refl _, hle⟩
  · exact row_skipCovered h hpos hsize _ hle

theorem row_seekFound (hle : w.row (e.tableAt pos) ≤ e.cardinality (e.tableAt pos)) :
    w.row (e.tableAt pos) ≤ (e.seekFound pos w).row (e.tableAt pos) ∧
      (e.seekFound pos w).row (e.tableAt pos) ≤ e.cardinality (e.tableAt pos) := by
  have ht : e.tableAt pos < w.tuple.size := hsize ▸ h.tableAt_lt hpos
  unfold seekFound
  split
  · rename_i hin
    have hstart := Nat.le_trans (Nat.le_max_left _ _) (le_seekStart hin)
    split
    · rename_i l hl
      -- A lookup starts before the row sought and answers a later one, or none.
      obtain ⟨hend, hlater⟩ :=
        row_lookUp (h.ascends pos hpos l hl) ht ((e.seekStart pos w : Int) - 1)
      refine ⟨?_, hend⟩
      rcases Nat.lt_or_eq_of_le hend with hlt | heq
      · have := hlater hlt
        omega
      · omega
    · rw [Walk.row_setRow_self ht]
      exact ⟨hstart, hin.le⟩
  · rw [Walk.row_setRow_self ht]
    exact ⟨hle, Nat.le_refl _⟩

theorem row_stepFound :
    (e.stepFound pos w).row (e.tableAt pos) ≤ e.cardinality (e.tableAt pos) ∧
      ((e.stepFound pos w).row (e.tableAt pos) < e.cardinality (e.tableAt pos) →
        w.row (e.tableAt pos) < (e.stepFound pos w).row (e.tableAt pos)) := by
  have ht : e.tableAt pos < w.tuple.size := hsize ▸ h.tableAt_lt hpos
  have hworkers := h.workers_pos
  unfold stepFound
  split
  · rename_i l hl
    obtain ⟨hle, hlater⟩ := row_lookUp (h.ascends pos hpos l hl) ht (w.row (e.tableAt pos))
    exact ⟨hle, fun hlt => by have := hlater hlt; omega⟩
  · rw [Walk.row_setRow_self ht]
    split <;> omega

/-- **`step` moves to a later row**, unless the position runs out. -/
theorem row_step :
    (e.step pos w).row (e.tableAt pos) ≤ e.cardinality (e.tableAt pos) ∧
      ((e.step pos w).row (e.tableAt pos) < e.cardinality (e.tableAt pos) →
        w.row (e.tableAt pos) < (e.step pos w).row (e.tableAt pos)) := by
  obtain ⟨hle, hlater⟩ := row_stepFound h hpos hsize
  obtain ⟨hskip, hend⟩ :=
    row_skipJoined h hpos ((e.moves_stepFound pos w).size.trans hsize) hle
  change (e.stepFound pos w).row (e.tableAt pos) ≤ (e.step pos w).row (e.tableAt pos) at hskip
  refine ⟨hend, fun hlt => Nat.lt_of_lt_of_le (hlater ?_) hskip⟩
  exact Nat.lt_of_le_of_lt hskip hlt

end Size

variable (hw : e.Fits w)

include hw

/-- **`seek` does not move a row back.** -/
theorem row_seek : w.row (e.tableAt pos) ≤ (e.seek pos w).row (e.tableAt pos) ∧
    (e.seek pos w).row (e.tableAt pos) ≤ e.cardinality (e.tableAt pos) := by
  obtain ⟨hle, hfound⟩ := row_seekFound h hpos hw.size (hw.row_le _ (h.tableAt_lt hpos))
  obtain ⟨hskip, hend⟩ :=
    row_skipJoined h hpos ((e.moves_seekFound pos w).size.trans hw.size) hfound
  exact ⟨Nat.le_trans hle hskip, hend⟩

theorem fits_seek : e.Fits (e.seek pos w) :=
  fits_of_moves hw (e.moves_seek pos w) (row_seek h hpos hw).2

theorem fits_step : e.Fits (e.step pos w) :=
  fits_of_moves hw (e.moves_step pos w) (row_step h hpos hw.size).1

/-- Seeking does not go back. -/
theorem rowsOf_le_seek : e.order.rowsOf w.tuple ≤ e.order.rowsOf (e.seek pos w).tuple :=
  rowsOf_le_of_moves h.isPermutation hpos (e.moves_seek pos w) (row_seek h hpos hw).1

end Move

/-! ### Moving on -/

/-- What comes next when one of the first `bound` positions moves on: the position that has moved
stands at a later row of its table. -/
structure Rises (e : Episode) (bound : Nat) (w : Walk) (next : Option Nat × Walk) : Prop where
  emitted : next.2.emitted = w.emitted
  steps : next.2.steps = w.steps
  fits : e.Fits next.2
  moved : ∀ p', next.1 = some p' → p' < bound ∧ e.order.Agree p' w.tuple next.2.tuple ∧
    w.row (e.tableAt p') < next.2.row (e.tableAt p') ∧
    next.2.row (e.tableAt p') < e.cardinality (e.tableAt p')

section Rises

variable (h : e.IsAscending) {w : Walk}

include h

/-- Moving on does not depend on the row of a position that has run out. -/
theorem Rises.of_setRow {outer : Nat} (hpos : outer + 1 < e.task.query.nrTables)
    {next : Option Nat × Walk} {w' : Walk} (hmoves : Walk.Moves (e.tableAt (outer + 1)) w w')
    (hnext : e.Rises (outer + 1) w' next) : e.Rises (outer + 1) w next := by
  have hagree := agree_of_moves h.isPermutation hpos hmoves
  refine ⟨hnext.emitted.trans hmoves.emitted, hnext.steps.trans hmoves.steps, hnext.fits,
    fun p' hp' => ?_⟩
  obtain ⟨hlt, ha, hrest⟩ := hnext.moved p' hp'
  rw [row_eq_of_agree hagree hlt] at hrest
  exact ⟨hlt, (hagree.mono hlt.le).trans ha, hrest⟩

omit h in
theorem Rises.mono {bound bound' : Nat} {next : Option Nat × Walk} (hnext : e.Rises bound w next)
    (hle : bound ≤ bound') : e.Rises bound' w next :=
  { hnext with moved := fun p' hp' =>
      have ⟨hlt, hrest⟩ := hnext.moved p' hp'
      ⟨by omega, hrest⟩ }

/-- Moving on is ahead of everything before. -/
theorem Rises.rowsOf_lt {bound : Nat} {next : Option Nat × Walk} (hnext : e.Rises bound w next)
    (hbound : bound ≤ e.task.query.nrTables) {p' : Nat} (hp' : next.1 = some p') :
    e.order.rowsOf w.tuple < e.order.rowsOf next.2.tuple := by
  obtain ⟨hlt, hagree, hrow, -⟩ := hnext.moved p' hp'
  exact rowsOf_lt_of_row_lt h.isPermutation (by omega) hagree hrow

/-- A position that has a next candidate moves there. -/
theorem rises_of_step (hpos : pos < e.task.query.nrTables) (hw : e.Fits w)
    (hin : e.isExhausted pos (e.step pos w) = false) :
    e.Rises (pos + 1) w (some pos, (e.step pos w).resetRows (e.deeper pos)) := by
  have hmoves := e.moves_step pos w
  have hreset := agree_resetDeeper h.isPermutation hpos (e.step pos w)
  have hlt : (e.step pos w).row (e.tableAt pos) < e.cardinality (e.tableAt pos) := by
    simpa [isExhausted] using hin
  have hrow : ((e.step pos w).resetRows (e.deeper pos)).row (e.tableAt pos) =
      (e.step pos w).row (e.tableAt pos) := row_eq_of_agree hreset (by omega)
  refine ⟨hmoves.emitted, hmoves.steps, fits_resetDeeper (fits_step h hpos hw), fun p' hp' => ?_⟩
  obtain rfl := Option.some.inj hp'
  refine ⟨by omega, (agree_of_moves h.isPermutation hpos hmoves).trans (hreset.mono (by omega)), ?_⟩
  rw [hrow]
  exact ⟨(row_step h hpos hw.size).2 hlt, hlt⟩

theorem fits_setRow_zero (hpos : pos < e.task.query.nrTables) (hw : e.Fits w) :
    e.Fits (w.setRow (e.tableAt pos) 0) :=
  fits_of_moves hw (Walk.moves_setRow w _ _)
    ((Walk.row_setRow_self (hw.size ▸ h.tableAt_lt hpos) 0).le.trans (Nat.zero_le _))

theorem proposeNext_rises (hpos : pos < e.task.query.nrTables) (hw : e.Fits w) :
    e.Rises (pos + 1) w (e.proposeNext pos w) := by
  induction pos generalizing w with
  | zero =>
    -- Behind the last row of the first table there is no further proposal.
    rw [proposeNext]
    cases hout : e.isExhausted 0 (e.step 0 w) with
    | false => exact rises_of_step h hpos hw hout
    | true =>
      have hmoves := e.moves_step 0 w
      exact ⟨hmoves.emitted, hmoves.steps, fits_step h hpos hw, fun p' hp' => absurd hp' (by simp)⟩
  | succ outer ih =>
    rw [proposeNext]
    cases hout : e.isExhausted (outer + 1) (e.step (outer + 1) w) with
    | false => exact rises_of_step h hpos hw hout
    | true =>
      -- The walk steps back one table and moves on there.
      have hnext := ih (by omega) (fits_setRow_zero h hpos (fits_step h hpos hw))
      exact (hnext.of_setRow h hpos ((e.moves_step _ w).trans (Walk.moves_setRow _ _ _))).mono
        (Nat.le_succ _)

theorem leave_rises (hpos : pos < e.task.query.nrTables) (hw : e.Fits w) :
    e.Rises pos w (e.leave pos w) := by
  cases pos with
  | zero => exact ⟨rfl, rfl, hw, fun p' hp' => absurd hp' (by simp [leave])⟩
  | succ outer =>
    exact (proposeNext_rises h (by omega) (fits_setRow_zero h hpos hw)).of_setRow h hpos
      (Walk.moves_setRow w _ _)

/-- Leaving positions that have run out does not lead to another such position. -/
theorem leave_isExhausted (hpos : pos < e.task.query.nrTables) (hw : e.Fits w) {p' : Nat}
    (hp' : (e.leave pos w).1 = some p') : e.isExhausted p' (e.leave pos w).2 = false := by
  obtain ⟨-, -, -, hlt⟩ := (leave_rises h hpos hw).moved p' hp'
  unfold isExhausted
  rw [decide_eq_false_iff_not]
  omega

end Rises

/-! ### Where the loops stand -/

/-- The loops stand at a position within the tables: the outer positions and the outermost one have
a row. -/
structure IsWithin (e : Episode) (pos : Nat) (w : Walk) : Prop where
  lt : pos < e.task.query.nrTables
  leftmost_lt : w.row (e.tableAt 0) < e.cardinality (e.tableAt 0)
  outer_lt : ∀ p' < pos, w.row (e.tableAt p') < e.cardinality (e.tableAt p')

theorem isExhausted_eq_false_iff {w : Walk} :
    e.isExhausted pos w = false ↔ w.row (e.tableAt pos) < e.cardinality (e.tableAt pos) := by
  rw [isExhausted, decide_eq_false_iff_not, Nat.not_le]

theorem isWithin_of_outer_lt {w : Walk} (hpos : pos < e.task.query.nrTables)
    (hin : w.row (e.tableAt pos) < e.cardinality (e.tableAt pos))
    (houter : ∀ p' < pos, w.row (e.tableAt p') < e.cardinality (e.tableAt p')) :
    e.IsWithin pos w := by
  refine ⟨hpos, ?_, houter⟩
  rcases Nat.eq_zero_or_pos pos with rfl | hgt
  · exact hin
  · exact houter 0 hgt

/-- The position that has moved is one at which the loops may stand. -/
theorem Rises.isWithin {w : Walk} {bound : Nat} {next : Option Nat × Walk}
    (hnext : e.Rises bound w next) (hbound : bound ≤ e.task.query.nrTables)
    (houter : ∀ p', p' + 1 < bound → w.row (e.tableAt p') < e.cardinality (e.tableAt p')) {p' : Nat}
    (hp' : next.1 = some p') : e.IsWithin p' next.2 := by
  obtain ⟨hlt, hagree, -, hin⟩ := hnext.moved p' hp'
  refine isWithin_of_outer_lt (by omega) hin fun k hk => ?_
  rw [row_eq_of_agree hagree hk]
  exact houter k (by omega)

/-- What the loops have done since they started from a tuple: they have moved ahead and emitted
tuples in ascending order on the way. -/
structure Ascent (e : Episode) (start : Tuple) (next : Option Nat × Walk) : Prop where
  fits : e.Fits next.2
  isWithin : ∀ pos, next.1 = some pos → e.IsWithin pos next.2
  le : ∀ pos, next.1 = some pos → e.order.rowsOf start ≤ e.order.rowsOf next.2.tuple
  /-- The loops are ahead of the start once a step is done. -/
  ahead : ∀ pos, next.1 = some pos → e.order.rowsOf start < e.order.rowsOf next.2.tuple ∨
    (next.2.steps = 0 ∧ e.isExhausted pos next.2 = false ∧
      (pos = e.last ∨ e.accepts pos next.2 = false))
  sorted : next.2.emitted.toList.Pairwise fun a b => e.order.rowsOf a < e.order.rowsOf b
  lt : ∀ pos, next.1 = some pos → ∀ x ∈ next.2.emitted,
    e.order.rowsOf x < e.order.rowsOf next.2.tuple
  le_emitted : ∀ x ∈ next.2.emitted, e.order.rowsOf start ≤ e.order.rowsOf x

section Ascent

variable (h : e.IsAscending) {w : Walk} {start : Tuple}

include h

/-- **Moving on continues an ascent.** -/
theorem Rises.ascent {bound : Nat} {next : Option Nat × Walk} (hnext : e.Rises bound w next)
    (hbound : bound ≤ e.task.query.nrTables)
    (houter : ∀ p', p' + 1 < bound → w.row (e.tableAt p') < e.cardinality (e.tableAt p'))
    (hle : e.order.rowsOf start ≤ e.order.rowsOf w.tuple)
    (hsorted : w.emitted.toList.Pairwise fun a b => e.order.rowsOf a < e.order.rowsOf b)
    (hlast : ∀ x ∈ w.emitted, e.order.rowsOf x ≤ e.order.rowsOf w.tuple)
    (hemitted : ∀ x ∈ w.emitted, e.order.rowsOf start ≤ e.order.rowsOf x) :
    e.Ascent start next where
  fits := hnext.fits
  isWithin _ hp' := hnext.isWithin hbound houter hp'
  le _ hp' := hle.trans (hnext.rowsOf_lt h hbound hp').le
  ahead _ hp' := Or.inl (lt_of_le_of_lt hle (hnext.rowsOf_lt h hbound hp'))
  sorted := by
    rw [hnext.emitted]
    exact hsorted
  lt p' hp' x hx := by
    rw [hnext.emitted] at hx
    exact lt_of_le_of_lt (hlast x hx) (hnext.rowsOf_lt h hbound hp')
  le_emitted := by
    rw [hnext.emitted]
    exact hemitted

/-! ### One step -/

/-- Leaving a position continues the ascent. -/
theorem leave_ascent (ht : e.Ascent start (some pos, w)) : e.Ascent start (e.leave pos w) := by
  have hat := ht.isWithin pos rfl
  exact (leave_rises h hat.lt ht.fits).ascent h hat.lt.le (fun p' hp' => hat.outer_lt p' (by omega))
    (ht.le pos rfl) ht.sorted (fun x hx => (ht.lt pos rfl x hx).le) ht.le_emitted

/-- A row that is not accepted is passed over. -/
theorem reject_ascent (ht : e.Ascent start (some pos, w)) :
    e.Ascent start (e.proposeNext pos { w with steps := w.steps + 1 }) := by
  have hat := ht.isWithin pos rfl
  exact (proposeNext_rises h (w := { w with steps := w.steps + 1 }) hat.lt
    ⟨ht.fits.size, ht.fits.row_le⟩).ascent h hat.lt (fun p' hp' => hat.outer_lt p' (by omega))
    (ht.le pos rfl) ht.sorted (fun x hx => (ht.lt pos rfl x hx).le) ht.le_emitted

/-- The current tuple is emitted. -/
theorem emit_ascent (ht : e.Ascent start (some pos, w)) :
    e.Ascent start (e.proposeNext pos
      { w with emitted := w.emitted.push w.tuple, steps := w.steps + 1 }) := by
  have hat := ht.isWithin pos rfl
  refine (proposeNext_rises h
    (w := { w with emitted := w.emitted.push w.tuple, steps := w.steps + 1 }) hat.lt
    ⟨ht.fits.size, ht.fits.row_le⟩).ascent h hat.lt (fun p' hp' => hat.outer_lt p' (by omega))
    (ht.le pos rfl) ?_ (fun x hx => ?_) fun x hx => ?_
  · -- The emitted tuple lies behind all tuples emitted before.
    rw [Array.toList_push, List.pairwise_append]
    refine ⟨ht.sorted, List.pairwise_singleton _ _, fun x hx y hy => ?_⟩
    rw [List.mem_singleton.1 hy]
    exact ht.lt pos rfl x (Array.mem_toList_iff.1 hx)
  · rcases Array.mem_push.1 hx with hx | rfl
    · exact (ht.lt pos rfl x hx).le
    · exact le_refl _
  · rcases Array.mem_push.1 hx with hx | rfl
    · exact ht.le_emitted x hx
    · exact ht.le pos rfl

theorem IsWithin.succ_lt (hat : e.IsWithin pos w) (hpos : pos ≠ e.last) :
    pos + 1 < e.task.query.nrTables := by
  have hlast := last_eq h.isPermutation
  have hlt := hat.lt
  omega

/-- A row that is accepted before the last position leads to the next position. -/
theorem descend_ascent (ht : e.Ascent start (some pos, w)) (hin : e.isExhausted pos w = false)
    (haccept : e.accepts pos w = true) (hpos : pos ≠ e.last) :
    e.Ascent start (some (pos + 1), e.seek (pos + 1) { w with steps := w.steps + 1 }) := by
  set w' : Walk := { w with steps := w.steps + 1 } with hw'
  have hat : e.IsWithin pos w' := { ht.isWithin pos rfl with }
  have hfits : e.Fits w' := ⟨ht.fits.size, ht.fits.row_le⟩
  have hlt := hat.succ_lt h hpos
  have hmoves := e.moves_seek (pos + 1) w'
  have hagree := agree_of_moves h.isPermutation hlt hmoves
  have hle : e.order.rowsOf w.tuple ≤ e.order.rowsOf (e.seek (pos + 1) w').tuple :=
    rowsOf_le_seek h hlt hfits
  have houter : ∀ p' < pos + 1, (e.seek (pos + 1) w').row (e.tableAt p') <
      e.cardinality (e.tableAt p') := by
    intro p' hp'
    rw [row_eq_of_agree hagree hp']
    rcases Nat.lt_succ_iff_lt_or_eq.1 hp' with hp' | rfl
    · exact hat.outer_lt p' hp'
    · exact isExhausted_eq_false_iff.1 hin
  refine ⟨fits_seek h hlt hfits, fun p' hp' => ?_, fun p' _ => (ht.le pos rfl).trans hle,
    fun p' _ => Or.inl ?_, ?_, fun p' _ x hx => ?_, ?_⟩
  · -- All outer positions stand at rows of their tables.
    obtain rfl := Option.some.inj hp'
    exact ⟨hlt, houter 0 (by omega), houter⟩
  · -- The loops are ahead already, since they descend from a row that is accepted.
    rcases ht.ahead pos rfl with hlt' | ⟨-, -, heq | hreject⟩
    · exact lt_of_lt_of_le hlt' hle
    · exact absurd heq hpos
    · exact absurd (haccept.symm.trans hreject) (by decide)
  · rw [hmoves.emitted]
    exact ht.sorted
  · rw [hmoves.emitted] at hx
    exact lt_of_lt_of_le (ht.lt pos rfl x hx) hle
  · rw [hmoves.emitted]
    exact ht.le_emitted

omit h in
/-- A step passes over a row, emits a tuple, or leads to the next position. -/
theorem visit_cases (e : Episode) (pos : Nat) (w : Walk) :
    (e.accepts pos w = false ∧
      e.visit pos w = e.proposeNext pos { w with steps := w.steps + 1 }) ∨
    (e.accepts pos w = true ∧ pos = e.last ∧ e.visit pos w = e.proposeNext pos
      { w with emitted := w.emitted.push w.tuple, steps := w.steps + 1 }) ∨
    (e.accepts pos w = true ∧ pos ≠ e.last ∧
      e.visit pos w = (some (pos + 1), e.seek (pos + 1) { w with steps := w.steps + 1 })) := by
  unfold visit
  cases haccept : e.accepts pos w with
  | false =>
    -- Counting a step changes no row, and so no check.
    have haccept' : e.accepts pos { w with steps := w.steps + 1 } = false := haccept
    simp [haccept']
  | true =>
    have haccept' : e.accepts pos { w with steps := w.steps + 1 } = true := haccept
    by_cases hpos : pos = e.last
    · subst hpos
      simp [haccept']
    · simp [haccept', hpos]

/-- **One step continues the ascent.** -/
theorem visit_ascent (ht : e.Ascent start (some pos, w)) (hin : e.isExhausted pos w = false) :
    e.Ascent start (e.visit pos w) := by
  rcases e.visit_cases pos w with ⟨-, heq⟩ | ⟨-, -, heq⟩ | ⟨haccept, hpos, heq⟩
  · exact heq ▸ reject_ascent h ht
  · exact heq ▸ emit_ascent h ht
  · exact heq ▸ descend_ascent h ht hin haccept hpos

/-! ### All steps of an episode -/

omit h in
theorem proposeNext_steps (e : Episode) (pos : Nat) (w : Walk) :
    (e.proposeNext pos w).2.steps = w.steps := by
  induction pos generalizing w with
  | zero =>
    rw [proposeNext]
    split
    · exact (e.moves_step 0 w).steps
    · exact (e.moves_step 0 w).steps
  | succ outer ih =>
    rw [proposeNext]
    split
    · exact (e.moves_step (outer + 1) w).steps
    · exact (ih _).trans (e.moves_step (outer + 1) w).steps

omit h in
theorem leave_steps (e : Episode) (pos : Nat) (w : Walk) : (e.leave pos w).2.steps = w.steps := by
  cases pos with
  | zero => rfl
  | succ outer => exact e.proposeNext_steps outer _

omit h in
theorem visit_steps (e : Episode) (pos : Nat) (w : Walk) :
    (e.visit pos w).2.steps = w.steps + 1 := by
  rw [visit]
  split
  · exact e.proposeNext_steps pos _
  · split
    · exact e.proposeNext_steps pos _
    · exact (e.moves_seek (pos + 1) _).steps

/-- Leaves a position that has run out of rows; this costs no step. -/
def settle (e : Episode) (pos : Nat) (w : Walk) : Option Nat × Walk :=
  if e.isExhausted pos w then e.leave pos w else (some pos, w)

omit h in
theorem advance_succ (e : Episode) (budget pos : Nat) (w : Walk) :
    e.advance (budget + 1) (some pos, w) =
      match e.settle pos w with
      | (none, w) => (none, w)
      | (some pos, w) => e.advance budget (e.visit pos w) := rfl

omit h in
theorem settle_steps (e : Episode) (pos : Nat) (w : Walk) : (e.settle pos w).2.steps = w.steps := by
  unfold settle
  split
  · exact e.leave_steps pos w
  · rfl

theorem settle_isExhausted (hpos : pos < e.task.query.nrTables) (hw : e.Fits w) {p' : Nat}
    (hp' : (e.settle pos w).1 = some p') : e.isExhausted p' (e.settle pos w).2 = false := by
  unfold settle at hp' ⊢
  split at hp'
  · rename_i hout
    rw [if_pos hout]
    exact leave_isExhausted h hpos hw hp'
  · rename_i hin
    rw [if_neg hin]
    exact Option.some.inj hp' ▸ Bool.eq_false_iff.2 hin

/-- **All steps of an episode keep what every step and leaving a position keep.** -/
theorem advance_induction {motive : Option Nat × Walk → Prop}
    (hascent : ∀ next, motive next → e.Ascent start next)
    (hleave : ∀ pos w, motive (some pos, w) → e.isExhausted pos w = true → motive (e.leave pos w))
    (hvisit : ∀ pos w, motive (some pos, w) → e.isExhausted pos w = false → motive (e.visit pos w))
    (budget : Nat) {next : Option Nat × Walk} (hnext : motive next) :
    motive (e.advance budget next) := by
  induction budget generalizing next with
  | zero => exact hnext
  | succ budget ih =>
    obtain ⟨pos?, w⟩ := next
    cases pos? with
    | none => exact hnext
    | some pos =>
      have ht := hascent _ hnext
      -- A step of the budget first leaves an exhausted position, and then visits the one found.
      have hsettled : motive (e.settle pos w) := by
        unfold settle
        split
        · rename_i hout
          exact hleave pos w hnext hout
        · exact hnext
      have hin : ∀ p', (e.settle pos w).1 = some p' → e.isExhausted p' (e.settle pos w).2 = false :=
        fun _ hp' => settle_isExhausted h (ht.isWithin pos rfl).lt ht.fits hp'
      rw [advance_succ]
      split
      · rename_i heq
        exact heq ▸ hsettled
      · rename_i p' w' heq
        rw [heq] at hsettled hin
        exact ih (hvisit p' w' hsettled (hin p' rfl))

/-- **All steps of an episode continue the ascent.** -/
theorem advance_ascent (budget : Nat) {next : Option Nat × Walk} (ht : e.Ascent start next) :
    e.Ascent start (e.advance budget next) :=
  advance_induction h (fun _ => id) (fun _ _ ht _ => leave_ascent h ht)
    (fun _ _ ht hin => visit_ascent h ht hin) budget ht

omit h in
/-- An episode that is not over has spent its whole budget. -/
theorem advance_steps (e : Episode) (budget : Nat) (next : Option Nat × Walk) :
    (e.advance budget next).2.steps ≤ next.2.steps + budget ∧
      ((e.advance budget next).1.isSome →
        (e.advance budget next).2.steps = next.2.steps + budget) := by
  induction budget generalizing next with
  | zero => exact ⟨Nat.le_refl _, fun _ => rfl⟩
  | succ budget ih =>
    obtain ⟨pos?, w⟩ := next
    cases pos? with
    | none => exact ⟨Nat.le_add_right _ _, fun hsome => absurd hsome (by simp [advance])⟩
    | some pos =>
      have hsteps := e.settle_steps pos w
      rw [advance_succ]
      split
      · rename_i heq
        rw [heq] at hsteps
        exact ⟨Nat.le_trans hsteps.le (Nat.le_add_right _ _), fun hsome => absurd hsome (by simp)⟩
      · rename_i p' w' heq
        rw [heq] at hsteps
        obtain ⟨hle, hsome⟩ := ih (e.visit p' w')
        rw [visit_steps, show w'.steps = w.steps from hsteps] at hle hsome
        constructor
        · -- A visit spends one step, and the rest of the budget is left.
          show _ ≤ w.steps + (budget + 1)
          omega
        · intro hs
          rw [hsome hs]
          show w.steps + 1 + budget = w.steps + (budget + 1)
          omega

end Ascent

end Episode

end AdaptiveJoin
