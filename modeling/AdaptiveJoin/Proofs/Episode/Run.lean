import AdaptiveJoin.Proofs.Episode.Ahead
import AdaptiveJoin.Proofs.Episode.Loops

/-!
# What an episode achieves

An episode starts from a saved tuple, whose rows may have fallen behind the snapshot.  `resume`
brings it back into range without passing over a target (`Episode.resume_trace`), and then the loops
run: the episode emits exactly the targets from the saved tuple to the tuple at which it stops
(`Episode.run_trace`).
-/

namespace AdaptiveJoin

namespace Episode

variable {e : Episode} {p : Planner} {pos : Nat}

/-- Bringing a position back into range passes over no target. -/
theorem resumeAt_rowsOf_le (h : e.IsWellFormed p) {w : Walk} (hpos : pos < e.task.query.nrTables)
    (hw : e.Fits w) {target : Tuple} (ht : e.IsTarget target)
    (hle : e.order.rowsOf w.tuple ≤ e.order.rowsOf target) :
    e.order.rowsOf (e.resumeAt pos w).tuple ≤ e.order.rowsOf target := by
  have hresumed := agree_resumeAt h.isAscending hpos (w := w)
  by_cases hagree : e.order.Agree pos w.tuple target
  · have hrow := JoinOrder.row_le_of_rowsOf_le hle (h.size_order ▸ hpos) hagree
    have hseek := seek_row_le h hpos hw ht hagree hrow
    by_cases heq : (e.seek pos w).row (e.tableAt pos) = w.row (e.tableAt pos)
    · unfold resumeAt
      rw [if_pos heq]
      -- Nothing has moved.
      refine le_trans (JoinOrder.rowsOf_le_of_forall fun k hk _ => ?_) hle
      rw [h.size_order] at hk
      by_cases hk' : k = pos
      · exact hk' ▸ heq.le
      · exact ((e.moves_seek pos w).row _ fun ht => hk' (h.tableAt_inj hk hpos ht)).le
    · refine rowsOf_le_of_isFresh h (fun p' hp' hp'' => ?_) (hresumed.symm.trans hagree) ?_
      · unfold resumeAt
        rw [if_neg heq, row_resetDeeper h.isPermutation _ hp'', if_pos hp']
      · rw [row_resumeAt h.isAscending hpos]
        exact hseek
  · exact (JoinOrder.rowsOf_lt_of_agree hle (h.size_order ▸ hpos.le) hagree hresumed
      fun _ _ => rfl).le

section Resume

variable (h : e.IsWellFormed p) {start : Tuple} {w : Walk}

/-- What holds while a saved tuple is brought back into range: the positions before `pos` are
accepted, and no target has been passed over. -/
structure IsResuming (e : Episode) (start : Tuple) (pos : Nat) (w : Walk) : Prop
    extends e.Resumes start pos w where
  inShare : 0 < pos → w.row (e.tableAt 0) % e.workers = e.worker
  accepted : ∀ p' < pos, e.accepts p' w = true
  complete : ∀ target, e.IsTarget target → e.order.rowsOf start ≤ e.order.rowsOf target →
    e.order.rowsOf w.tuple ≤ e.order.rowsOf target

namespace IsResuming

include h

theorem resumeAt (hw : e.IsResuming start pos w) (hpos : pos < e.task.query.nrTables) :
    e.IsResuming start pos (e.resumeAt pos w) := by
  have hresumes := hw.toResumes.resumeAt h.isAscending hpos
  have hagree : e.order.Agree pos w.tuple (e.resumeAt pos w).tuple :=
    agree_resumeAt h.isAscending hpos
  refine ⟨hresumes, fun hlt => ?_, fun p' hp' => ?_, fun target ht hstart => ?_⟩
  · rw [row_eq_of_agree hagree hlt]
    exact hw.inShare hlt
  · rw [← accepts_congr h (by omega) hw.fits.size hresumes.fits.size
      (hagree.mono (show p' + 1 ≤ pos by omega))]
    exact hw.accepted p' hp'
  · exact resumeAt_rowsOf_le h hpos hw.fits ht (hw.complete target ht hstart)

/-- A row in range at the outermost position is one of the worker's share. -/
theorem inShare_resumeAt (hw : e.IsResuming start pos w) (hpos : pos < e.task.query.nrTables)
    (hlt : (e.resumeAt pos w).row (e.tableAt pos) < e.cardinality (e.tableAt pos)) :
    (e.resumeAt pos w).row (e.tableAt 0) % e.workers = e.worker := by
  rcases Nat.eq_zero_or_pos pos with rfl | hgt
  · rw [row_resumeAt h.isAscending hpos] at hlt ⊢
    exact ((seek_isNext h.enumerates hpos hw.fits.size).holds hlt).1.inShare rfl
  · exact (hw.resumeAt h hpos).inShare hgt

/-- A position that has run out is left: the targets are ahead at an outer position. -/
theorem leave_trace (hw : e.IsResuming start pos w) (hpos : pos < e.task.query.nrTables)
    (hout : e.isExhausted pos w = true) : e.Trace start (e.leave pos w) := by
  apply (leave_proposes h hpos hw.fits hw.inShare).trace h
    (hw.toResumes.leave_ascent h.isAscending hpos) hpos.le hw.fits.size hw.inShare
    fun p' hp' => hw.accepted p' (by omega)
  · simp [hw.emitted_eq]
  · intro target ht hstart
    have hle := hw.complete target ht hstart
    refine Or.inr (exists_row_lt h hle hpos.le fun hagree => ?_)
    have hrow : w.row (e.tableAt pos) ≤ target.row (e.tableAt pos) :=
      JoinOrder.row_le_of_rowsOf_le hle (h.size_order ▸ hpos) hagree
    have hlt := ht.row_lt pos hpos
    unfold isExhausted at hout
    rw [decide_eq_true_eq] at hout
    omega

omit h in
/-- The descent ends at a position in range that is the last one or whose row is not accepted. -/
theorem stop_trace (hw : e.IsResuming start pos w) (hpos : pos < e.task.query.nrTables)
    (hshare : w.row (e.tableAt 0) % e.workers = e.worker) (hin : e.isExhausted pos w = false)
    (hstop : pos = e.last ∨ e.accepts pos w = false) : e.Trace start (some pos, w) := by
  refine ⟨hw.toResumes.stop_ascent hpos hin hstop, fun p' hp' => ?_, fun x hx => ?_,
    fun target ht hstart => Or.inr ⟨pos, rfl, hw.complete target ht hstart⟩⟩
  · obtain rfl := Option.some.inj hp'
    exact ⟨hshare, hw.accepted,
      hstop.elim Or.inl fun hreject => Or.inr (Or.inr (Or.inl hreject))⟩
  · exact absurd (show x ∈ w.emitted from hx) (by simp [hw.emitted_eq])

omit h in
theorem succ (hw : e.IsResuming start pos w)
    (hshare : w.row (e.tableAt 0) % e.workers = e.worker) (hin : e.isExhausted pos w = false)
    (haccepts : e.accepts pos w = true) : e.IsResuming start (pos + 1) w := by
  refine ⟨hw.toResumes.succ hin, fun _ => hshare, fun p' hp' => ?_, hw.complete⟩
  rcases Nat.lt_succ_iff_lt_or_eq.1 hp' with hp' | rfl
  · exact hw.accepted p' hp'
  · exact haccepts

end IsResuming

include h

/-- **Bringing a saved tuple back into range starts a trace.** -/
theorem resumeFrom_trace {rest : Nat} (hrest : pos + rest = e.task.query.nrTables)
    (hpos : pos < e.task.query.nrTables) (hw : e.IsResuming start pos w) :
    e.Trace start (e.resumeFrom pos rest w) := by
  induction rest generalizing pos w with
  | zero => omega
  | succ rest ih =>
    have hmoved := hw.resumeAt h hpos
    rw [resumeFrom_succ]
    split
    · rename_i hout
      -- The saved row is the last of its position.
      exact hmoved.leave_trace h hpos hout
    · rename_i hin
      rw [Bool.not_eq_true] at hin
      have hshare := hw.inShare_resumeAt h hpos (isExhausted_eq_false_iff.1 hin)
      split
      · rename_i hstop
        rw [Bool.or_eq_true, decide_eq_true_eq, Bool.not_eq_true'] at hstop
        -- The loops go on at the innermost position or at a row that is rejected.
        refine hmoved.stop_trace hpos hshare hin (hstop.imp_left fun hzero => ?_)
        rw [last_eq h.isPermutation]
        omega
      · rename_i hgo
        simp only [Bool.or_eq_true, decide_eq_true_eq, Bool.not_eq_true', not_or,
          Bool.not_eq_false] at hgo
        exact ih (by omega) (by omega) (hmoved.succ hshare hin hgo.2)

/-! ### The episode -/

variable {cursors : Array Cursor} (hstart : e.Fits ⟨start, cursors, #[], 0⟩)

include hstart

theorem resume_trace : e.Trace start (e.resume ⟨start, cursors, #[], 0⟩) := by
  unfold resume
  rw [h.size_order]
  exact resumeFrom_trace h (Nat.zero_add _) h.nrTables_pos
    { resumes_start hstart with
      inShare := fun hlt => absurd hlt (Nat.lt_irrefl 0)
      accepted := fun p' hp' => absurd hp' (by omega)
      complete := fun target _ hstart => hstart }

/-- **An episode emits accepted tuples in ascending order and passes over no target.** -/
theorem run_trace : e.Trace start (e.run start cursors) := by
  have hascent := run_ascent h.isAscending hstart
  have ht := advance_trace h e.task.budget (resume_trace h hstart)
  obtain ⟨next, hnext, ⟨hnone, hrun⟩ | ⟨-, hrun⟩⟩ := e.run_cases start cursors
  · rw [hnext] at ht
    rw [hrun] at hascent ⊢
    refine ⟨hascent, fun pos hpos => absurd hpos (by simp), ht.isAccepted,
      fun target htarget hle => ?_⟩
    rcases ht.complete target htarget hle with hmem | ⟨pos, hpos, -⟩
    · exact Or.inl hmem
    · exact absurd (hnone.symm.trans hpos) (by simp)
  · rw [hnext] at ht
    exact hrun ▸ ht

end Resume

end Episode

end AdaptiveJoin
