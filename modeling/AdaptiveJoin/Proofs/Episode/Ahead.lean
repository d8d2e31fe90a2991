import AdaptiveJoin.Proofs.Episode.Ascent

/-!
# Episodes stop ahead of where they started

An episode whose lookups only move forward starts from a saved tuple, which `resume` brings back
into range without going back (`Episode.resume_ascent`), and then the loops run.

* `Episode.run_ascent`: an episode emits tuples in ascending order, none of them before its start.
* `Episode.run_ahead`: an episode that is not over stops ahead of where it started.
* `Episode.run_row_leftmost`: any other one stops behind the last row of the outermost table.
-/

namespace AdaptiveJoin

namespace Episode

variable {e : Episode} {pos : Nat}

/-! ### Bringing a saved tuple back into range -/

/-- Where `resumeFrom` moves a position: to its first candidate, with everything behind it anew if
the row changes. -/
def resumeAt (e : Episode) (pos : Nat) (w : Walk) : Walk :=
  if (e.seek pos w).row (e.tableAt pos) = w.row (e.tableAt pos) then e.seek pos w
  else (e.seek pos w).resetRows (e.deeper pos)

theorem resumeFrom_succ (e : Episode) (pos rest : Nat) (w : Walk) :
    e.resumeFrom pos (rest + 1) w =
      if e.isExhausted pos (e.resumeAt pos w) then e.leave pos (e.resumeAt pos w)
      else if rest = 0 || !e.accepts pos (e.resumeAt pos w) then (some pos, e.resumeAt pos w)
      else e.resumeFrom (pos + 1) rest (e.resumeAt pos w) := rfl

theorem resumeAt_emitted (e : Episode) (pos : Nat) (w : Walk) :
    (e.resumeAt pos w).emitted = w.emitted := by
  unfold resumeAt
  split
  · exact (e.moves_seek pos w).emitted
  · exact (e.moves_seek pos w).emitted

theorem resumeAt_steps (e : Episode) (pos : Nat) (w : Walk) :
    (e.resumeAt pos w).steps = w.steps := by
  unfold resumeAt
  split
  · exact (e.moves_seek pos w).steps
  · exact (e.moves_seek pos w).steps

section ResumeAt

variable (h : e.IsAscending) {w : Walk} (hpos : pos < e.task.query.nrTables)

include h hpos

theorem agree_resumeAt : e.order.Agree pos w.tuple (e.resumeAt pos w).tuple := by
  have hagree := agree_of_moves h.isPermutation hpos (e.moves_seek pos w)
  unfold resumeAt
  split
  · exact hagree
  · exact hagree.trans ((agree_resetDeeper h.isPermutation hpos _).mono (by omega))

theorem row_resumeAt :
    (e.resumeAt pos w).row (e.tableAt pos) = (e.seek pos w).row (e.tableAt pos) := by
  unfold resumeAt
  split
  · rfl
  · exact row_eq_of_agree (agree_resetDeeper h.isPermutation hpos _) (by omega)

theorem fits_resumeAt (hw : e.Fits w) : e.Fits (e.resumeAt pos w) := by
  unfold resumeAt
  split
  · exact fits_seek h hpos hw
  · exact fits_resetDeeper (fits_seek h hpos hw)

/-- Bringing a position back into range does not go back. -/
theorem rowsOf_le_resumeAt (hw : e.Fits w) :
    e.order.rowsOf w.tuple ≤ e.order.rowsOf (e.resumeAt pos w).tuple := by
  by_cases heq : (e.seek pos w).row (e.tableAt pos) = w.row (e.tableAt pos)
  · unfold resumeAt
    rw [if_pos heq]
    exact rowsOf_le_seek h hpos hw
  · have hle := (row_seek h hpos hw).1
    refine (rowsOf_lt_of_row_lt h.isPermutation hpos (agree_resumeAt h hpos) ?_).le
    rw [show Tuple.row _ (e.tableAt pos) = _ from row_resumeAt h hpos]
    show w.row (e.tableAt pos) < _
    omega

end ResumeAt

/-- What holds while a saved tuple is brought back into range: nothing has been done yet, and the
positions before `pos` have a row. -/
structure Resumes (e : Episode) (start : Tuple) (pos : Nat) (w : Walk) : Prop where
  fits : e.Fits w
  emitted_eq : w.emitted = #[]
  steps_eq : w.steps = 0
  outer_lt : ∀ p' < pos, w.row (e.tableAt p') < e.cardinality (e.tableAt p')
  le : e.order.rowsOf start ≤ e.order.rowsOf w.tuple

section Resume

variable (h : e.IsAscending) {start : Tuple} {w : Walk}

namespace Resumes

/-- The descent ends at a position in range that is the last one or whose row is not accepted. -/
theorem stop_ascent (hw : e.Resumes start pos w) (hpos : pos < e.task.query.nrTables)
    (hin : e.isExhausted pos w = false) (hstop : pos = e.last ∨ e.accepts pos w = false) :
    e.Ascent start (some pos, w) := by
  refine ⟨hw.fits, fun p' hp' => ?_, fun _ _ => hw.le, fun p' hp' => ?_, ?_, fun p' _ x hx => ?_,
    fun x hx => ?_⟩
  · obtain rfl := Option.some.inj hp'
    exact isWithin_of_outer_lt hpos (isExhausted_eq_false_iff.1 hin) hw.outer_lt
  · obtain rfl := Option.some.inj hp'
    exact Or.inr ⟨hw.steps_eq, hin, hstop⟩
  · show w.emitted.toList.Pairwise _
    rw [hw.emitted_eq]
    exact List.Pairwise.nil
  · exact absurd (show x ∈ w.emitted from hx) (by simp [hw.emitted_eq])
  · exact absurd (show x ∈ w.emitted from hx) (by simp [hw.emitted_eq])

theorem succ (hw : e.Resumes start pos w) (hin : e.isExhausted pos w = false) :
    e.Resumes start (pos + 1) w := by
  refine { hw with outer_lt := fun p' hp' => ?_ }
  rcases Nat.lt_succ_iff_lt_or_eq.1 hp' with hp' | rfl
  · exact hw.outer_lt p' hp'
  · exact isExhausted_eq_false_iff.1 hin

include h

theorem resumeAt (hw : e.Resumes start pos w) (hpos : pos < e.task.query.nrTables) :
    e.Resumes start pos (e.resumeAt pos w) := by
  refine ⟨fits_resumeAt h hpos hw.fits, (e.resumeAt_emitted pos w).trans hw.emitted_eq,
    (e.resumeAt_steps pos w).trans hw.steps_eq, fun p' hp' => ?_,
    hw.le.trans (rowsOf_le_resumeAt h hpos hw.fits)⟩
  rw [row_eq_of_agree (agree_resumeAt h hpos) hp']
  exact hw.outer_lt p' hp'

/-- A position that has run out is left. -/
theorem leave_ascent (hw : e.Resumes start pos w) (hpos : pos < e.task.query.nrTables) :
    e.Ascent start (e.leave pos w) := by
  have houter : ∀ p', p' + 1 < pos → w.row (e.tableAt p') < e.cardinality (e.tableAt p') :=
    fun p' hp' => hw.outer_lt p' (by omega)
  apply (leave_rises h hpos hw.fits).ascent h hpos.le houter hw.le
  · rw [hw.emitted_eq]
    exact List.Pairwise.nil
  · simp [hw.emitted_eq]
  · simp [hw.emitted_eq]

end Resumes

include h

/-- **Bringing a saved tuple back into range** ends at a position that has run out and is left, or
at a position in range that is the last one or has a row that is not accepted. -/
theorem resumeFrom_cases {rest : Nat} (hrest : pos + rest = e.task.query.nrTables)
    (hpos : pos < e.task.query.nrTables) (hw : e.Resumes start pos w) :
    ∃ p' w', p' < e.task.query.nrTables ∧ e.Resumes start p' w' ∧
      ((e.isExhausted p' w' = true ∧ e.resumeFrom pos rest w = e.leave p' w') ∨
        (e.isExhausted p' w' = false ∧ (p' = e.last ∨ e.accepts p' w' = false) ∧
          e.resumeFrom pos rest w = (some p', w'))) := by
  induction rest generalizing pos w with
  | zero => omega
  | succ rest ih =>
    have hmoved := hw.resumeAt h hpos
    rw [resumeFrom_succ]
    split
    · rename_i hout
      -- The position is exhausted, and the loops leave it.
      exact ⟨pos, _, hpos, hmoved, Or.inl ⟨hout, rfl⟩⟩
    · rename_i hin
      rw [Bool.not_eq_true] at hin
      split
      · rename_i hstop
        -- The loops stand at the last position, or at a row that is rejected.
        rw [Bool.or_eq_true, decide_eq_true_eq, Bool.not_eq_true'] at hstop
        refine ⟨pos, _, hpos, hmoved, Or.inr ⟨hin, hstop.imp_left fun hzero => ?_, rfl⟩⟩
        rw [last_eq h.isPermutation]
        omega
      · rename_i hgo
        -- The saved row is accepted, so the loops go on with the next position.
        have hrest' : rest ≠ 0 := by
          rintro rfl
          simp at hgo
        exact ih (by omega) (by omega) (hmoved.succ hin)

/-! ### The episode -/

variable {cursors : Array Cursor} (hstart : e.Fits ⟨start, cursors, #[], 0⟩)

omit h in
include hstart in
theorem resumes_start : e.Resumes start 0 ⟨start, cursors, #[], 0⟩ :=
  ⟨hstart, rfl, rfl, fun p' hp' => absurd hp' (by omega), le_refl _⟩

include hstart

/-- How an episode finds its first position. -/
theorem resume_cases : ∃ p' w', p' < e.task.query.nrTables ∧ e.Resumes start p' w' ∧
    ((e.isExhausted p' w' = true ∧ e.resume ⟨start, cursors, #[], 0⟩ = e.leave p' w') ∨
      (e.isExhausted p' w' = false ∧ (p' = e.last ∨ e.accepts p' w' = false) ∧
        e.resume ⟨start, cursors, #[], 0⟩ = (some p', w'))) := by
  unfold resume
  rw [h.size_order]
  exact resumeFrom_cases h (Nat.zero_add _) h.nrTables_pos (resumes_start hstart)

/-- **An ascent starts** once a saved tuple is back in range. -/
theorem resume_ascent :
    e.Ascent start (e.resume ⟨start, cursors, #[], 0⟩) ∧
      (e.resume ⟨start, cursors, #[], 0⟩).2.steps = 0 := by
  obtain ⟨p', w', hp', hw', ⟨-, heq⟩ | ⟨hin, hstop, heq⟩⟩ := resume_cases h hstart
  · rw [heq]
    exact ⟨hw'.leave_ascent h hp', (e.leave_steps p' w').trans hw'.steps_eq⟩
  · rw [heq]
    exact ⟨hw'.stop_ascent hp' hin hstop, hw'.steps_eq⟩

omit h hstart in
/-- An episode that is over stands behind the last row of the outermost table, any other one where
the loops have stopped. -/
theorem run_cases (e : Episode) (start : Tuple) (cursors : Array Cursor) :
    ∃ next, e.advance e.task.budget (e.resume ⟨start, cursors, #[], 0⟩) = next ∧
      ((next.1 = none ∧ e.run start cursors =
        (none, next.2.setRow e.order.leftmost (e.cardinality e.order.leftmost))) ∨
      (next.1.isSome ∧ e.run start cursors = next)) := by
  refine ⟨_, rfl, ?_⟩
  unfold run
  split
  · rename_i w heq
    exact Or.inl ⟨heq ▸ rfl, by rw [heq]⟩
  · rename_i pos w heq
    exact Or.inr ⟨heq ▸ rfl, by rw [heq]⟩

/-- **An episode emits tuples in ascending order, from its start on.** -/
theorem run_ascent : e.Ascent start (e.run start cursors) := by
  have ht := advance_ascent h e.task.budget (resume_ascent h hstart).1
  obtain ⟨next, hnext, ⟨-, hrun⟩ | ⟨-, hrun⟩⟩ := e.run_cases start cursors
  · rw [hnext] at ht
    have hlt := h.tableAt_lt h.nrTables_pos
    rw [hrun]
    refine ⟨fits_of_moves ht.fits (Walk.moves_setRow next.2 e.order.leftmost _) ?_,
      fun pos hpos => absurd hpos (by simp), fun pos hpos => absurd hpos (by simp),
      fun pos hpos => absurd hpos (by simp), ht.sorted, fun pos hpos => absurd hpos (by simp),
      ht.le_emitted⟩
    exact (Walk.row_setRow_self (ht.fits.size ▸ hlt) _).le
  · rw [hnext] at ht
    exact hrun ▸ ht

/-- An episode never exceeds its budget, and spends it unless it is over. -/
theorem run_steps : (e.run start cursors).2.steps ≤ e.task.budget ∧
    ((e.run start cursors).1.isSome → (e.run start cursors).2.steps = e.task.budget) := by
  have hsteps := e.advance_steps e.task.budget (e.resume ⟨start, cursors, #[], 0⟩)
  rw [(resume_ascent h hstart).2, Nat.zero_add] at hsteps
  obtain ⟨next, hnext, ⟨-, hrun⟩ | ⟨-, hrun⟩⟩ := e.run_cases start cursors
  · rw [hnext] at hsteps
    rw [hrun]
    exact ⟨hsteps.1, fun hsome => absurd hsome (by simp)⟩
  · rw [hnext] at hsteps
    rw [hrun]
    exact hsteps

/-- **An episode that is not over stops ahead of where it started.** -/
theorem run_ahead (hbudget : 0 < e.task.budget) {pos : Nat}
    (hpos : (e.run start cursors).1 = some pos) :
    e.order.rowsOf start < e.order.rowsOf (e.run start cursors).2.tuple := by
  rcases (run_ascent h hstart).ahead pos hpos with hlt | ⟨hzero, -⟩
  · exact hlt
  · have := (run_steps h hstart).2 (by rw [hpos]; rfl)
    omega

/-- Behind an exhausted order the outermost table has run out. -/
theorem run_row_leftmost (hnone : (e.run start cursors).1 = none) :
    (e.run start cursors).2.row (e.tableAt 0) = e.cardinality (e.tableAt 0) := by
  have ht := advance_ascent h e.task.budget (resume_ascent h hstart).1
  obtain ⟨next, hnext, ⟨-, hrun⟩ | ⟨hsome, hrun⟩⟩ := e.run_cases start cursors
  · rw [hnext] at ht
    rw [hrun]
    exact Walk.row_setRow_self (ht.fits.size ▸ h.tableAt_lt h.nrTables_pos) _
  · rw [hrun] at hnone
    exact absurd hnone (Option.isSome_iff_ne_none.1 hsome)

end Resume

end Episode

end AdaptiveJoin
