import AdaptiveJoin.Proofs.Episode.Acceptance
import AdaptiveJoin.Proofs.Episode.Ascent

/-!
# Running the loops

The loops stand at a position (`Episode.IsAt`) when the rows of the outer positions are accepted.
Whatever moves them keeps this, moves the rows ahead in the order of the loops, and passes over no
target (`Episode.IsTarget`).

* `Episode.proposeNext_proposes` and `Episode.leave_proposes`: moving on.
* `Episode.visit_trace` and `Episode.advance_trace`: one step, and all steps of an episode.
-/

namespace AdaptiveJoin

namespace Episode

variable {e : Episode} {p : Planner} {pos : Nat}

/-- All positions behind a position stand at their first row. -/
def IsFresh (e : Episode) (pos : Nat) (w : Walk) : Prop :=
  ∀ p', pos < p' → p' < e.task.query.nrTables → w.row (e.tableAt p') = 0

section Basic

variable (h : e.IsWellFormed p)

include h

/-- Fresh rows are behind all rows that are not behind at the position. -/
theorem rowsOf_le_of_isFresh {w : Walk} {b : Tuple} (hfresh : e.IsFresh pos w)
    (hagree : e.order.Agree pos w.tuple b) (hle : w.row (e.tableAt pos) ≤ b.row (e.tableAt pos)) :
    e.order.rowsOf w.tuple ≤ e.order.rowsOf b := by
  apply JoinOrder.rowsOf_le_of_forall
  intro k hk _
  rw [h.size_order] at hk
  rcases Nat.lt_trichotomy k pos with hlt | rfl | hgt
  · exact (hagree k hlt).le
  · exact hle
  · have : w.tuple.row (e.order.tableAt k) = 0 := hfresh k hgt hk
    omega

/-- Rows that are behind others without agreeing with them are behind at some position. -/
theorem exists_row_lt {a b : Tuple} (hle : e.order.rowsOf a ≤ e.order.rowsOf b)
    (hpos : pos ≤ e.task.query.nrTables) (hne : ¬e.order.Agree pos a b) :
    ∃ k < pos, e.order.Agree k a b ∧ a.row (e.tableAt k) < b.row (e.tableAt k) := by
  have hlt : e.order.rowsOf a < e.order.rowsOf b := lt_of_le_of_ne hle fun heq =>
    hne ((JoinOrder.rowsOf_eq_iff.1 heq).mono (h.size_order ▸ hpos))
  obtain ⟨k, hk, hagree, hrow⟩ := JoinOrder.rowsOf_lt_iff.1 hlt
  refine ⟨k, ?_, hagree, hrow⟩
  by_contra hge
  exact hne (hagree.mono (by omega))

end Basic

/-! ### Moving on -/

/-- What comes next when one of the first `bound` positions is to move to its next candidate. -/
structure Proposes (e : Episode) (bound : Nat) (w : Walk) (next : Option Nat × Walk) : Prop
    extends e.Rises bound w next where
  inShare : next.1 = some 0 → next.2.row (e.tableAt 0) % e.workers = e.worker
  /-- Everything behind the position that has moved starts anew. -/
  fresh : ∀ p', next.1 = some p' → e.IsFresh p' next.2
  /-- No target is passed over. -/
  complete : ∀ target, e.IsTarget target → ∀ k < bound, e.order.Agree k w.tuple target →
    w.row (e.tableAt k) < target.row (e.tableAt k) →
    ∃ p', next.1 = some p' ∧ e.order.rowsOf next.2.tuple ≤ e.order.rowsOf target

section Proposes

variable (h : e.IsWellFormed p) {w : Walk}

include h

/-- Moving on does not depend on the row of a position that has run out. -/
theorem Proposes.of_setRow {outer : Nat} (hpos : outer + 1 < e.task.query.nrTables)
    {next : Option Nat × Walk} {w' : Walk} (hmoves : Walk.Moves (e.tableAt (outer + 1)) w w')
    (hnext : e.Proposes (outer + 1) w' next) : e.Proposes (outer + 1) w next := by
  have hagree := agree_of_moves h.isPermutation hpos hmoves
  refine ⟨hnext.toRises.of_setRow h.isAscending hpos hmoves, hnext.inShare, hnext.fresh,
    fun target ht k hk hka hlt => ?_⟩
  apply hnext.complete target ht k hk ((hagree.mono hk.le).symm.trans hka)
  rwa [row_eq_of_agree hagree hk]

/-- A step does not pass over the row of a target. -/
theorem step_row_le (hpos : pos < e.task.query.nrTables) (hw : e.Fits w)
    (hshare : w.row (e.tableAt 0) % e.workers = e.worker) {target : Tuple}
    (ht : e.IsTarget target) (hagree : e.order.Agree pos w.tuple target)
    (hlt : w.row (e.tableAt pos) < target.row (e.tableAt pos)) :
    (e.step pos w).row (e.tableAt pos) ≤ target.row (e.tableAt pos) :=
  (step_isNext h.enumerates hpos hw.size fun hzero => hzero ▸ hshare).least _ (ht.row_lt pos hpos)
    (ht.isCandidate h hpos hagree) hlt

/-- A position that has a next candidate moves there. -/
theorem proposes_of_step (hpos : pos < e.task.query.nrTables) (hw : e.Fits w)
    (hshare : w.row (e.tableAt 0) % e.workers = e.worker)
    (hin : e.isExhausted pos (e.step pos w) = false) :
    e.Proposes (pos + 1) w (some pos, (e.step pos w).resetRows (e.deeper pos)) := by
  have hrises := rises_of_step h.isAscending hpos hw hin
  obtain ⟨-, hagree, -⟩ := hrises.moved pos rfl
  have hrow : ((e.step pos w).resetRows (e.deeper pos)).row (e.tableAt pos) =
      (e.step pos w).row (e.tableAt pos) :=
    row_eq_of_agree (agree_resetDeeper h.isPermutation hpos _) (by omega)
  have hfresh : e.IsFresh pos ((e.step pos w).resetRows (e.deeper pos)) := fun p' hp' hp'' => by
    rw [row_resetDeeper h.isPermutation _ hp'', if_pos hp']
  refine ⟨hrises, fun hzero => ?_, fun p' hp' => Option.some.inj hp' ▸ hfresh,
    fun target ht k hk hka hklt => ⟨pos, rfl, ?_⟩⟩
  · obtain rfl := Option.some.inj hzero
    rw [hrow]
    exact ((step_isNext h.enumerates hpos hw.size fun _ => hshare).holds
      (isExhausted_eq_false_iff.1 hin)).1.inShare rfl
  · -- A target that differs before the position lies behind all rows of the position.
    rcases Nat.lt_succ_iff_lt_or_eq.1 hk with hk | rfl
    · refine (rowsOf_lt_of_row_lt h.isPermutation (show k < _ by omega)
        ((hagree.mono hk.le).symm.trans hka) ?_).le
      rw [show Tuple.row _ (e.tableAt k) = _ from row_eq_of_agree hagree hk]
      exact hklt
    · apply rowsOf_le_of_isFresh h hfresh (hagree.symm.trans hka)
      rw [hrow]
      exact step_row_le h hpos hw hshare ht hka hklt

/-- A position that runs out has no target before the end. -/
theorem not_isTarget_of_isExhausted (hpos : pos < e.task.query.nrTables) (hw : e.Fits w)
    (hshare : w.row (e.tableAt 0) % e.workers = e.worker)
    (hout : e.isExhausted pos (e.step pos w) = true) {target : Tuple}
    (hagree : e.order.Agree pos w.tuple target)
    (hlt : w.row (e.tableAt pos) < target.row (e.tableAt pos)) : ¬e.IsTarget target := by
  intro ht
  have hle := step_row_le h hpos hw hshare ht hagree hlt
  have hend := ht.row_lt pos hpos
  unfold isExhausted at hout
  rw [decide_eq_true_eq] at hout
  omega

theorem proposeNext_proposes (hpos : pos < e.task.query.nrTables) (hw : e.Fits w)
    (hshare : w.row (e.tableAt 0) % e.workers = e.worker) :
    e.Proposes (pos + 1) w (e.proposeNext pos w) := by
  have hrises := proposeNext_rises h.isAscending hpos hw
  induction pos generalizing w with
  | zero =>
    rw [proposeNext] at hrises ⊢
    cases hout : e.isExhausted 0 (e.step 0 w) with
    | false => exact proposes_of_step h hpos hw hshare hout
    | true =>
      rw [hout] at hrises
      refine ⟨hrises, fun hp' => absurd hp' (by simp), fun p' hp' => absurd hp' (by simp),
        fun target ht k hk hka hklt => ?_⟩
      obtain rfl : k = 0 := by omega
      exact absurd ht (not_isTarget_of_isExhausted h hpos hw hshare hout hka hklt)
  | succ outer ih =>
    rw [proposeNext] at hrises ⊢
    cases hout : e.isExhausted (outer + 1) (e.step (outer + 1) w) with
    | false => exact proposes_of_step h hpos hw hshare hout
    | true =>
      rw [hout] at hrises
      have hmoves : Walk.Moves (e.tableAt (outer + 1)) w
          ((e.step (outer + 1) w).setRow (e.tableAt (outer + 1)) 0) :=
        (e.moves_step (outer + 1) w).trans (Walk.moves_setRow _ _ _)
      have hagree := agree_of_moves h.isPermutation hpos hmoves
      have hfits := fits_setRow_zero h.isAscending hpos (fits_step h.isAscending hpos hw)
      have hnext := Proposes.of_setRow h hpos hmoves (ih (by omega) hfits
        (by rw [row_eq_of_agree hagree (by omega)]; exact hshare)
        (proposeNext_rises h.isAscending (by omega) hfits))
      refine ⟨hrises, hnext.inShare, hnext.fresh, fun target ht k hk hka hklt => ?_⟩
      refine hnext.complete target ht k ?_ hka hklt
      -- The position itself has run out before the row of the target.
      by_contra hge
      obtain rfl : k = outer + 1 := by omega
      exact not_isTarget_of_isExhausted h hpos hw hshare hout hka hklt ht

theorem leave_proposes (hpos : pos < e.task.query.nrTables) (hw : e.Fits w)
    (hshare : 0 < pos → w.row (e.tableAt 0) % e.workers = e.worker) :
    e.Proposes pos w (e.leave pos w) := by
  cases pos with
  | zero =>
    exact ⟨leave_rises h.isAscending hpos hw, fun hp' => absurd hp' (by simp [leave]),
      fun p' hp' => absurd hp' (by simp [leave]), fun _ _ k hk => absurd hk (by omega)⟩
  | succ outer =>
    have hmoves := Walk.moves_setRow w (e.tableAt (outer + 1)) 0
    have hagree := agree_of_moves h.isPermutation hpos hmoves
    refine Proposes.of_setRow h hpos hmoves (proposeNext_proposes h (by omega)
      (fits_setRow_zero h.isAscending hpos hw) ?_)
    rw [row_eq_of_agree hagree (by omega)]
    exact hshare (by omega)

end Proposes

/-! ### Where the loops stand -/

/-- The loops stand at a position: the rows of the outer positions are accepted.  A row that is
going to be accepted before the last position has nothing but first rows behind it. -/
structure IsAt (e : Episode) (pos : Nat) (w : Walk) : Prop where
  inShare : w.row (e.tableAt 0) % e.workers = e.worker
  accepted : ∀ p' < pos, e.accepts p' w = true
  fresh : pos = e.last ∨ e.isExhausted pos w = true ∨ e.accepts pos w = false ∨ e.IsFresh pos w

/-- What the loops have done since they started from a tuple: they have emitted accepted tuples in
ascending order and passed over no target. -/
structure Trace (e : Episode) (start : Tuple) (next : Option Nat × Walk) : Prop
    extends e.Ascent start next where
  isAt : ∀ pos, next.1 = some pos → e.IsAt pos next.2
  isAccepted : ∀ x ∈ next.2.emitted, e.IsAccepted x
  complete : ∀ target, e.IsTarget target → e.order.rowsOf start ≤ e.order.rowsOf target →
    target ∈ next.2.emitted ∨
      ∃ pos, next.1 = some pos ∧ e.order.rowsOf next.2.tuple ≤ e.order.rowsOf target

section Trace

variable (h : e.IsWellFormed p) {w : Walk} {start : Tuple}

include h

/-- The position that has moved is one at which the loops may stand. -/
theorem Proposes.isAt {bound : Nat} {next : Option Nat × Walk} (hnext : e.Proposes bound w next)
    (hbound : bound ≤ e.task.query.nrTables) (hsize : w.tuple.size = e.task.query.nrTables)
    (hshare : 0 < bound → w.row (e.tableAt 0) % e.workers = e.worker)
    (haccepted : ∀ p', p' + 1 < bound → e.accepts p' w = true)
    {p' : Nat} (hp' : next.1 = some p') : e.IsAt p' next.2 := by
  obtain ⟨hlt, hagree, -⟩ := hnext.moved p' hp'
  refine ⟨?_, fun k hk => ?_, Or.inr (Or.inr (Or.inr (hnext.fresh p' hp')))⟩
  · rcases Nat.eq_zero_or_pos p' with rfl | hpos
    · exact hnext.inShare hp'
    · rw [row_eq_of_agree hagree hpos]
      exact hshare (by omega)
  · rw [← accepts_congr h (by omega) hsize hnext.fits.size (hagree.mono (show k + 1 ≤ p' by omega))]
    exact haccepted k (by omega)

/-- **Moving on continues a trace**, if the targets that are left are ahead at some position. -/
theorem Proposes.trace {bound : Nat} {next : Option Nat × Walk} (hnext : e.Proposes bound w next)
    (hascent : e.Ascent start next) (hbound : bound ≤ e.task.query.nrTables)
    (hsize : w.tuple.size = e.task.query.nrTables)
    (hshare : 0 < bound → w.row (e.tableAt 0) % e.workers = e.worker)
    (haccepted : ∀ p', p' + 1 < bound → e.accepts p' w = true)
    (hemitted : ∀ x ∈ w.emitted, e.IsAccepted x)
    (hcomplete : ∀ target, e.IsTarget target → e.order.rowsOf start ≤ e.order.rowsOf target →
      target ∈ w.emitted ∨
        ∃ k < bound, e.order.Agree k w.tuple target ∧
          w.row (e.tableAt k) < target.row (e.tableAt k)) :
    e.Trace start next := by
  refine ⟨hascent, fun p' hp' => hnext.isAt h hbound hsize hshare haccepted hp', ?_,
    fun target ht hstart => ?_⟩
  · rw [hnext.emitted]
    exact hemitted
  · rw [hnext.emitted]
    -- A result that is not emitted yet differs from the walk at some position, and lies ahead
    -- there.
    rcases hcomplete target ht hstart with hmem | ⟨k, hk, hagree, hlt⟩
    · exact Or.inl hmem
    · exact Or.inr (hnext.complete target ht k hk hagree hlt)

/-! ### One step -/

/-- Leaving a position that has run out continues the trace. -/
theorem leave_trace (ht : e.Trace start (some pos, w)) (hout : e.isExhausted pos w = true) :
    e.Trace start (e.leave pos w) := by
  have hat := ht.isAt pos rfl
  have hpos := (ht.isWithin pos rfl).lt
  refine (leave_proposes h hpos ht.fits fun _ => hat.inShare).trace h
    (leave_ascent h.isAscending ht.toAscent) hpos.le ht.fits.size (fun _ => hat.inShare)
    (fun p' hp' => hat.accepted p' (by omega)) ht.isAccepted fun target htarget hstart => ?_
  -- The walk stands behind the last row of its table, so that a result ahead of it differs in an
  -- outer one.
  rcases ht.complete target htarget hstart with hmem | ⟨_, -, hle⟩
  · exact Or.inl hmem
  · refine Or.inr (exists_row_lt h hle hpos.le fun hagree => ?_)
    have hrow : w.row (e.tableAt pos) ≤ target.row (e.tableAt pos) :=
      JoinOrder.row_le_of_rowsOf_le hle (h.size_order ▸ hpos) hagree
    have hlt := htarget.row_lt pos hpos
    unfold isExhausted at hout
    rw [decide_eq_true_eq] at hout
    omega

/-- A row that is not accepted is passed over. -/
theorem reject_trace (ht : e.Trace start (some pos, w)) (hreject : e.accepts pos w = false) :
    e.Trace start (e.proposeNext pos { w with steps := w.steps + 1 }) := by
  have hat := ht.isAt pos rfl
  have hpos := (ht.isWithin pos rfl).lt
  have hnext := proposeNext_proposes h (w := { w with steps := w.steps + 1 }) hpos
    ⟨ht.fits.size, ht.fits.row_le⟩ hat.inShare
  refine hnext.trace h (reject_ascent h.isAscending ht.toAscent) hpos ht.fits.size
    (fun _ => hat.inShare) (fun p' hp' => hat.accepted p' (by omega)) ht.isAccepted
    fun target htarget hstart => ?_
  rcases ht.complete target htarget hstart with hmem | ⟨_, -, hle⟩
  · exact Or.inl hmem
  · refine Or.inr (exists_row_lt h hle hpos fun hagree => ?_)
    rw [htarget.accepts_of_agree h hpos ht.fits.size hagree] at hreject
    exact absurd hreject (by decide)

omit h in
/-- The current tuple is accepted once its last row is. -/
theorem isAccepted_of_isAt (hat : e.IsAt pos w) (hwithin : e.IsWithin pos w) (hfits : e.Fits w)
    (hin : e.isExhausted pos w = false) (haccept : e.accepts pos w = true)
    (hlast : pos + 1 = e.task.query.nrTables) : e.IsAccepted w.tuple := by
  refine ⟨hfits.size, fun p' hp' => ?_, fun p' hp' => ?_, hat.inShare⟩
  · rcases Nat.lt_succ_iff_lt_or_eq.1 (hlast ▸ hp') with hlt | rfl
    · exact hwithin.outer_lt p' hlt
    · exact isExhausted_eq_false_iff.1 hin
  · rcases Nat.lt_succ_iff_lt_or_eq.1 (hlast ▸ hp') with hlt | rfl
    · exact hat.accepted p' hlt
    · exact haccept

/-- A row that is accepted at the last position is emitted. -/
theorem emit_trace (ht : e.Trace start (some pos, w)) (hin : e.isExhausted pos w = false)
    (haccept : e.accepts pos w = true) (hpos : pos = e.last) :
    e.Trace start (e.proposeNext pos
      { w with emitted := w.emitted.push w.tuple, steps := w.steps + 1 }) := by
  have hat := ht.isAt pos rfl
  have hwithin := ht.isWithin pos rfl
  have hlast : pos + 1 = e.task.query.nrTables := by
    have := last_eq h.isPermutation
    have := h.nrTables_pos
    omega
  have haccepted : e.IsAccepted w.tuple :=
    isAccepted_of_isAt hat hwithin ht.fits hin haccept hlast
  have hnext := proposeNext_proposes h
    (w := { w with emitted := w.emitted.push w.tuple, steps := w.steps + 1 }) hwithin.lt
    ⟨ht.fits.size, ht.fits.row_le⟩ hat.inShare
  refine hnext.trace h (emit_ascent h.isAscending ht.toAscent) hwithin.lt ht.fits.size
    (fun _ => hat.inShare) (fun p' hp' => hat.accepted p' (by omega)) (fun x hx => ?_)
    fun target htarget hstart => ?_
  · rcases Array.mem_push.1 hx with hx | rfl
    · exact ht.isAccepted x hx
    · exact haccepted
  · rcases ht.complete target htarget hstart with hmem | ⟨_, -, hle⟩
    · exact Or.inl (Array.mem_push.2 (Or.inl hmem))
    -- The target is the tuple that is emitted, or it lies behind it.
    by_cases hagree : e.order.Agree e.task.query.nrTables w.tuple target
    · refine Or.inl (Array.mem_push.2 (Or.inr ?_))
      exact (h.isPermutation.eq_of_agree ht.fits.size htarget.size hagree).symm
    · exact Or.inr (exists_row_lt h hle hwithin.lt (hlast ▸ hagree))

/-- `seek` does not pass over the row of a target. -/
theorem seek_row_le (hpos : pos < e.task.query.nrTables) (hw : e.Fits w) {target : Tuple}
    (ht : e.IsTarget target) (hagree : e.order.Agree pos w.tuple target)
    (hle : w.row (e.tableAt pos) ≤ target.row (e.tableAt pos)) :
    (e.seek pos w).row (e.tableAt pos) ≤ target.row (e.tableAt pos) :=
  (seek_isNext h.enumerates hpos hw.size).least _ (ht.row_lt pos hpos)
    (ht.isCandidate h hpos hagree) (Nat.max_le.2 ⟨hle, ht.lowerBound_le_row h hpos⟩)

omit h in
/-- Nothing but first rows lies behind a row that is going to be accepted before the last
position. -/
theorem IsAt.isFresh (hat : e.IsAt pos w) (hin : e.isExhausted pos w = false)
    (haccept : e.accepts pos w = true) (hpos : pos ≠ e.last) : e.IsFresh pos w := by
  rcases hat.fresh with heq | hout | hreject | hfresh
  · exact absurd heq hpos
  · exact absurd (hin.symm.trans hout) (by decide)
  · exact absurd (haccept.symm.trans hreject) (by decide)
  · exact hfresh

/-- First rows lie behind the row that `seek` moves to. -/
theorem isFresh_seek (hlt : pos + 1 < e.task.query.nrTables) (hfresh : e.IsFresh pos w) :
    e.IsFresh (pos + 1) (e.seek (pos + 1) w) := by
  intro p' hp' hp''
  rw [(e.moves_seek (pos + 1) w).row _ fun heq => by have := h.tableAt_inj hp'' hlt heq; omega]
  exact hfresh p' (by omega) hp''

/-- The loops stand at the next position once a row is accepted. -/
theorem IsAt.descend (hat : e.IsAt pos w) (hfits : e.Fits w)
    (hlt : pos + 1 < e.task.query.nrTables) (hin : e.isExhausted pos w = false)
    (haccept : e.accepts pos w = true) (hpos : pos ≠ e.last) :
    e.IsAt (pos + 1) (e.seek (pos + 1) w) := by
  have hmoves := e.moves_seek (pos + 1) w
  have hagree := agree_of_moves h.isPermutation hlt hmoves
  refine ⟨?_, fun p' hp' => ?_,
    Or.inr (Or.inr (Or.inr (isFresh_seek h hlt (hat.isFresh hin haccept hpos))))⟩
  · rw [row_eq_of_agree hagree (by omega)]
    exact hat.inShare
  · rw [← accepts_congr h (by omega) hfits.size (hmoves.size.trans hfits.size)
      (hagree.mono (show p' + 1 ≤ pos + 1 by omega))]
    rcases Nat.lt_succ_iff_lt_or_eq.1 hp' with hp' | rfl
    · exact hat.accepted p' hp'
    · exact haccept

/-- A row that is accepted before the last position leads to the next position. -/
theorem descend_trace (ht : e.Trace start (some pos, w)) (hin : e.isExhausted pos w = false)
    (haccept : e.accepts pos w = true) (hpos : pos ≠ e.last) :
    e.Trace start (some (pos + 1), e.seek (pos + 1) { w with steps := w.steps + 1 }) := by
  set w' : Walk := { w with steps := w.steps + 1 } with hw'
  have hat : e.IsAt pos w' := { ht.isAt pos rfl with }
  have hfits : e.Fits w' := ⟨ht.fits.size, ht.fits.row_le⟩
  have hlt : pos + 1 < e.task.query.nrTables := (ht.isWithin pos rfl).succ_lt h.isAscending hpos
  have hfresh : e.IsFresh pos w' := hat.isFresh hin haccept hpos
  have hmoves := e.moves_seek (pos + 1) w'
  have hagree := agree_of_moves h.isPermutation hlt hmoves
  refine ⟨descend_ascent h.isAscending ht.toAscent hin haccept hpos, fun p' hp' => ?_, ?_,
    fun target htarget hstart => ?_⟩
  · obtain rfl := Option.some.inj hp'
    exact hat.descend h hfits hlt hin haccept hpos
  · rw [hmoves.emitted]
    exact ht.isAccepted
  · rw [hmoves.emitted]
    rcases ht.complete target htarget hstart with hmem | ⟨_, -, hle'⟩
    · exact Or.inl hmem
    refine Or.inr ⟨pos + 1, rfl, ?_⟩
    -- The deeper positions are at their first rows, so no target with the same outer rows is
    -- missed.
    by_cases hagree' : e.order.Agree (pos + 1) w.tuple target
    · have hzero : w'.row (e.tableAt (pos + 1)) = 0 := hfresh (pos + 1) (by omega) hlt
      apply rowsOf_le_of_isFresh h (isFresh_seek h hlt hfresh) (hagree.symm.trans hagree')
      exact seek_row_le h hlt hfits htarget hagree' (by rw [hzero]; omega)
    · exact (JoinOrder.rowsOf_lt_of_agree hle' (h.size_order ▸ hlt.le) hagree' hagree
        fun _ _ => rfl).le

/-- **One step continues the trace.** -/
theorem visit_trace (ht : e.Trace start (some pos, w)) (hin : e.isExhausted pos w = false) :
    e.Trace start (e.visit pos w) := by
  rcases e.visit_cases pos w with ⟨hreject, heq⟩ | ⟨haccept, hpos, heq⟩ | ⟨haccept, hpos, heq⟩
  · exact heq ▸ reject_trace h ht hreject
  · exact heq ▸ emit_trace h ht hin haccept hpos
  · exact heq ▸ descend_trace h ht hin haccept hpos

/-- **All steps of an episode continue the trace.** -/
theorem advance_trace (budget : Nat) {next : Option Nat × Walk} (ht : e.Trace start next) :
    e.Trace start (e.advance budget next) :=
  advance_induction h.isAscending (fun _ ht => ht.toAscent)
    (fun _ _ ht hout => leave_trace h ht hout) (fun _ _ ht hin => visit_trace h ht hin) budget ht

end Trace

end Episode

end AdaptiveJoin
