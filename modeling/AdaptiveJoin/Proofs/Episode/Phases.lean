import Mathlib.Logic.Relation
import AdaptiveJoin.Proofs.Episode.Ahead

/-!
# Episodes one move at a time

The loops of an episode call `seek` and `step` from within recursions.  `Episode.move` takes the
recursions apart: a `Phase` says which position is moved next and why, and one move leads from a
phase and a walk to the next ones.

* `Episode.reaches_run`: an episode goes through no other states than those that moves reach from
  its saved tuple (`Episode.Reaches`), whatever its budget is.
* `Episode.isOnTrack_of_reaches`: in all of these states the rows lie within their tables, and the
  row of the outermost position is one of the worker's share, once this position has been moved.
-/

namespace AdaptiveJoin

/-- What an episode does next. -/
inductive Phase where
  /-- Brings a position of the saved tuple back into range. -/
  | resume (pos : Nat)
  /-- Moves a position to its next candidate. -/
  | propose (pos : Nat)
  /-- Moves a position to its first candidate. -/
  | descend (pos : Nat)
  /-- Checks the row of a position, `none` once the outermost one has run out. -/
  | stand (pos? : Option Nat)
deriving DecidableEq

/-- The position that is moved or checked next. -/
def Phase.pos? : Phase → Option Nat
  | resume pos => some pos
  | propose pos => some pos
  | descend pos => some pos
  | stand pos? => pos?

namespace Episode

variable {e : Episode} {pos : Nat} {w : Walk}

/-! ### Moves -/

/-- Leaves a position that has run out. -/
def retreat (e : Episode) : Nat → Walk → Phase × Walk
  | 0, w => (.stand none, w)
  | outer + 1, w => (.propose outer, w.setRow (e.tableAt (outer + 1)) 0)

/-- One move of an episode, with at most one call of `seek` or `step`. -/
def move (e : Episode) : Phase × Walk → Phase × Walk
  | (.resume pos, w) =>
    let w := e.resumeAt pos w
    if e.isExhausted pos w then e.retreat pos w
    else if pos = e.last || !e.accepts pos w then (.stand (some pos), w)
    else (.resume (pos + 1), w)
  | (.propose pos, w) =>
    let w := e.step pos w
    if e.isExhausted pos w then e.retreat pos w
    else (.stand (some pos), w.resetRows (e.deeper pos))
  | (.descend pos, w) => (.stand (some pos), e.seek pos w)
  | (.stand none, w) => (.stand none, w)
  | (.stand (some pos), w) =>
    if e.isExhausted pos w then e.retreat pos w
    else
      let w := { w with steps := w.steps + 1 }
      if !e.accepts pos w then (.propose pos, w)
      else if pos = e.last then (.propose pos, { w with emitted := w.emitted.push w.tuple })
      else (.descend (pos + 1), w)

theorem retreat_ne_resume (e : Episode) (pos : Nat) (w : Walk) :
    (e.retreat pos w).1 ≠ .resume 0 := by
  cases pos <;> simp [retreat]

/-- No move leads back to the outermost position of the saved tuple. -/
theorem move_ne_resume (e : Episode) (s : Phase × Walk) : (e.move s).1 ≠ .resume 0 := by
  obtain ⟨phase, w⟩ := s
  cases phase with
  | resume pos =>
    simp only [move]
    split
    · exact e.retreat_ne_resume pos _
    · split <;> simp
  | propose pos =>
    simp only [move]
    split
    · exact e.retreat_ne_resume pos _
    · simp
  | descend pos => simp [move]
  | stand pos? =>
    cases pos? with
    | none => simp [move]
    | some pos =>
      simp only [move]
      split
      · exact e.retreat_ne_resume pos w
      · split
        · simp
        · split <;> simp

/-- Some number of moves leads from one state to another. -/
def Reaches (e : Episode) : Phase × Walk → Phase × Walk → Prop :=
  Relation.ReflTransGen fun s s' => e.move s = s'

/-- The loops between two steps. -/
def standing (next : Option Nat × Walk) : Phase × Walk := (.stand next.1, next.2)

theorem Reaches.refl (e : Episode) (s : Phase × Walk) : e.Reaches s s := Relation.ReflTransGen.refl

theorem Reaches.head {s s' : Phase × Walk} (h : e.Reaches (e.move s) s') : e.Reaches s s' :=
  Relation.ReflTransGen.head rfl h

theorem Reaches.trans {s s' s'' : Phase × Walk} (h : e.Reaches s s') (h' : e.Reaches s' s'') :
    e.Reaches s s'' :=
  Relation.ReflTransGen.trans h h'

theorem reaches_move (e : Episode) (s : Phase × Walk) : e.Reaches s (e.move s) :=
  Relation.ReflTransGen.single rfl

/-! ### The loops are made of moves -/

theorem reaches_proposeNext (e : Episode) (pos : Nat) (w : Walk) :
    e.Reaches (.propose pos, w) (standing (e.proposeNext pos w)) := by
  induction pos generalizing w with
  | zero =>
    have hmove := e.reaches_move (.propose 0, w)
    rw [proposeNext]
    cases hout : e.isExhausted 0 (e.step 0 w) <;> simpa [move, hout, retreat, standing] using hmove
  | succ outer ih =>
    apply Reaches.head
    rw [proposeNext]
    cases hout : e.isExhausted (outer + 1) (e.step (outer + 1) w) with
    | false => simpa [move, hout, standing] using Reaches.refl e _
    | true => simpa [move, hout, retreat] using ih _

theorem reaches_leave (e : Episode) (pos : Nat) (w : Walk) :
    e.Reaches (e.retreat pos w) (standing (e.leave pos w)) := by
  cases pos with
  | zero => exact Reaches.refl e _
  | succ outer => exact e.reaches_proposeNext outer _

theorem reaches_resumeFrom {rest : Nat} (hrest : pos + (rest + 1) = e.order.size) :
    e.Reaches (.resume pos, w) (standing (e.resumeFrom pos (rest + 1) w)) := by
  have hlast : rest = 0 ↔ pos = e.last := by
    unfold last
    omega
  induction rest generalizing pos w with
  | zero =>
    -- The innermost position stands at its saved row, whether it is accepted or not.
    obtain rfl := hlast.1 rfl
    apply Reaches.head
    rw [resumeFrom_succ]
    cases hout : e.isExhausted e.last (e.resumeAt e.last w) with
    | false => simpa [move, hout, standing] using Reaches.refl e _
    | true => simpa [move, hout] using e.reaches_leave e.last _
  | succ rest ih =>
    have hinner : pos ≠ e.last := fun heq => absurd (hlast.2 heq) (by simp)
    apply Reaches.head
    rw [resumeFrom_succ]
    cases hout : e.isExhausted pos (e.resumeAt pos w) with
    | true => simpa [move, hout] using e.reaches_leave pos _
    | false =>
      -- An outer position goes on to the next one only if its saved row is accepted.
      cases haccept : e.accepts pos (e.resumeAt pos w) with
      | false => simpa [move, hout, haccept, standing] using Reaches.refl e _
      | true =>
        have hnext : rest = 0 ↔ pos + 1 = e.last := by
          unfold last
          omega
        simpa [move, hout, haccept, hinner] using ih (by omega) hnext

theorem reaches_visit (hin : e.isExhausted pos w = false) :
    e.Reaches (.stand (some pos), w) (standing (e.visit pos w)) := by
  apply Reaches.head
  rcases e.visit_cases pos w with ⟨hreject, heq⟩ | ⟨haccept, hpos, heq⟩ | ⟨haccept, hpos, heq⟩
  · have hreject' : e.accepts pos { w with steps := w.steps + 1 } = false := hreject
    rw [heq]
    simpa [move, hin, hreject'] using e.reaches_proposeNext pos _
  · have haccept' : e.accepts pos { w with steps := w.steps + 1 } = true := haccept
    subst hpos
    rw [heq]
    simpa [move, hin, haccept'] using e.reaches_proposeNext e.last _
  · have haccept' : e.accepts pos { w with steps := w.steps + 1 } = true := haccept
    rw [heq]
    simpa [move, hin, haccept', hpos, standing] using e.reaches_move (.descend (pos + 1), _)

section Run

variable (h : e.IsAscending) {start : Tuple} {cursors : Array Cursor}

include h

/-- The steps of an episode are moves, however many there are. -/
theorem reaches_advance (budget : Nat) {s : Phase × Walk} {next : Option Nat × Walk}
    (ht : e.Ascent start next) (hs : e.Reaches s (standing next)) :
    e.Reaches s (standing (e.advance budget next)) := by
  refine (advance_induction h
    (motive := fun next => e.Ascent start next ∧ e.Reaches s (standing next))
    (fun _ hnext => hnext.1) ?_ ?_ budget ⟨ht, hs⟩).2
  · rintro pos w ⟨ht, hs⟩ hout
    refine ⟨leave_ascent h ht, hs.trans (Reaches.head ?_)⟩
    simpa [standing, move, hout] using e.reaches_leave pos w
  · rintro pos w ⟨ht, hs⟩ hin
    exact ⟨visit_ascent h ht hin, hs.trans (reaches_visit hin)⟩

/-- **An episode is made of moves** from its saved tuple on, whatever its budget is. -/
theorem reaches_run (hstart : e.Fits ⟨start, cursors, #[], 0⟩) (budget : Nat) :
    e.Reaches (.resume 0, ⟨start, cursors, #[], 0⟩)
      (standing (e.advance budget (e.resume ⟨start, cursors, #[], 0⟩))) := by
  apply reaches_advance h budget (resume_ascent h hstart).1
  obtain ⟨rest, hrest⟩ : ∃ rest, e.order.size = rest + 1 :=
    ⟨e.order.size - 1, by have := h.size_order; have := h.nrTables_pos; omega⟩
  unfold resume
  rw [hrest]
  exact reaches_resumeFrom (by omega)

end Run

/-! ### What all states have in common -/

/-- The row of the outermost position, if there is one, is one of the worker's share that is not
joined completely. -/
def HasShareRow (e : Episode) (w : Walk) : Prop :=
  w.row (e.tableAt 0) < e.cardinality (e.tableAt 0) →
    w.row (e.tableAt 0) % e.workers = e.worker ∧ e.lowerBound 0 ≤ w.row (e.tableAt 0)

theorem HasShareRow.congr {w w' : Walk} (hw : e.HasShareRow w)
    (heq : w'.row (e.tableAt 0) = w.row (e.tableAt 0)) : e.HasShareRow w' := by
  unfold HasShareRow
  rw [heq]
  exact hw

/-- What holds in all states of an episode.  The saved row of the outermost position may be one of
another share. -/
structure IsOnTrack (e : Episode) (s : Phase × Walk) : Prop where
  fits : e.Fits s.2
  lt : ∀ pos, s.1.pos? = some pos → pos < e.task.query.nrTables
  hasShareRow : s.1 ≠ .resume 0 → e.HasShareRow s.2

section Moves

variable (h : e.Enumerates) (hpos : pos < e.task.query.nrTables)

include h hpos

theorem hasShareRow_seek (hsize : w.tuple.size = e.task.query.nrTables)
    (hw : pos ≠ 0 → e.HasShareRow w) : e.HasShareRow (e.seek pos w) := by
  rcases Nat.eq_zero_or_pos pos with rfl | hlt
  · intro hin
    obtain ⟨hcandidate, hle⟩ := (seek_isNext h hpos hsize).holds hin
    exact ⟨hcandidate.inShare rfl, Nat.le_trans (Nat.le_max_right _ _) hle⟩
  · have hagree := agree_of_moves h.isPermutation hpos (e.moves_seek pos w)
    exact (hw (by omega)).congr (row_eq_of_agree hagree hlt)

theorem hasShareRow_step (hfits : e.Fits w) (hw : e.HasShareRow w) :
    e.HasShareRow (e.step pos w) := by
  rcases Nat.eq_zero_or_pos pos with rfl | hlt
  · intro hin
    have hlater := (row_step (h.isAscending hpos) hpos hfits.size).2 hin
    obtain ⟨hshare, hle⟩ := hw (hlater.trans hin)
    obtain ⟨hcandidate, -⟩ := (step_isNext h hpos hfits.size fun _ => hshare).holds hin
    exact ⟨hcandidate.inShare rfl, hle.trans hlater.le⟩
  · have hagree := agree_of_moves h.isPermutation hpos (e.moves_step pos w)
    exact hw.congr (row_eq_of_agree hagree hlt)

theorem hasShareRow_resetDeeper (hw : e.HasShareRow w) :
    e.HasShareRow (w.resetRows (e.deeper pos)) := by
  refine hw.congr ?_
  rw [row_resetDeeper h.isPermutation w (by omega), if_neg (by omega)]

theorem hasShareRow_resumeAt (hsize : w.tuple.size = e.task.query.nrTables)
    (hw : pos ≠ 0 → e.HasShareRow w) : e.HasShareRow (e.resumeAt pos w) := by
  have hseek := hasShareRow_seek h hpos hsize hw
  unfold resumeAt
  split
  · exact hseek
  · exact hasShareRow_resetDeeper h hpos hseek

theorem isOnTrack_retreat (hfits : e.Fits w) (hw : e.HasShareRow w) :
    e.IsOnTrack (e.retreat pos w) := by
  cases pos with
  | zero => exact ⟨hfits, fun pos hpos => absurd hpos (by simp [retreat, Phase.pos?]), fun _ => hw⟩
  | succ outer =>
    refine ⟨fits_setRow_zero (h.isAscending (by omega)) hpos hfits, fun pos hpos => ?_,
      fun _ => hw.congr ?_⟩
    · obtain rfl := Option.some.inj hpos
      omega
    · exact row_eq_of_agree (agree_of_moves h.isPermutation hpos (Walk.moves_setRow w _ 0))
        (Nat.succ_pos outer)

end Moves

/-! ### One move -/

section Move

variable (h : e.Enumerates)

include h

theorem IsOnTrack.resume (hs : e.IsOnTrack (.resume pos, w)) :
    e.IsOnTrack (e.move (.resume pos, w)) := by
  have hpos := hs.lt pos rfl
  have hfits := fits_resumeAt (h.isAscending (Nat.zero_lt_of_lt hpos)) hpos hs.fits
  have hshare := hasShareRow_resumeAt h hpos hs.fits.size fun hne =>
    hs.hasShareRow (by simpa using hne)
  have hlast := last_eq h.isPermutation
  simp only [Episode.move]
  split
  · -- Where no row is left the walk retreats, and else goes on to resume the next table, if any.
    exact isOnTrack_retreat h hpos hfits hshare
  · split
    · exact ⟨hfits, fun _ hpos' => Option.some.inj hpos' ▸ hpos, fun _ => hshare⟩
    · rename_i hgo
      have hinner : pos ≠ e.last := fun heq => hgo (by simp [heq])
      refine ⟨hfits, fun _ hpos' => Option.some.inj hpos' ▸ ?_, fun _ => hshare⟩
      omega

theorem IsOnTrack.propose (hs : e.IsOnTrack (.propose pos, w)) :
    e.IsOnTrack (e.move (.propose pos, w)) := by
  have hpos := hs.lt pos rfl
  have hfits := fits_step (h.isAscending (Nat.zero_lt_of_lt hpos)) hpos hs.fits
  have hshare := hasShareRow_step h hpos hs.fits (hs.hasShareRow (by simp))
  simp only [Episode.move]
  split
  · exact isOnTrack_retreat h hpos hfits hshare
  · exact ⟨fits_resetDeeper hfits, fun _ hpos' => Option.some.inj hpos' ▸ hpos,
      fun _ => hasShareRow_resetDeeper h hpos hshare⟩

theorem IsOnTrack.descend (hs : e.IsOnTrack (.descend pos, w)) :
    e.IsOnTrack (e.move (.descend pos, w)) := by
  have hpos := hs.lt pos rfl
  have hfits := fits_seek (h.isAscending (Nat.zero_lt_of_lt hpos)) hpos hs.fits
  have hshare := hasShareRow_seek h hpos hs.fits.size fun _ => hs.hasShareRow (by simp)
  exact ⟨hfits, fun _ hpos' => Option.some.inj hpos' ▸ hpos, fun _ => hshare⟩

/-- Checking a row changes none. -/
theorem IsOnTrack.stand (hs : e.IsOnTrack (.stand (some pos), w)) :
    e.IsOnTrack (e.move (.stand (some pos), w)) := by
  have hpos := hs.lt pos rfl
  have hshare := hs.hasShareRow (by simp)
  have hlast := last_eq h.isPermutation
  obtain ⟨hsize, hle⟩ := hs.fits
  simp only [Episode.move]
  split
  · exact isOnTrack_retreat h hpos ⟨hsize, hle⟩ hshare
  · split
    · exact ⟨⟨hsize, hle⟩, hs.lt, fun _ => hshare⟩
    · split
      · exact ⟨⟨hsize, hle⟩, hs.lt, fun _ => hshare⟩
      · refine ⟨⟨hsize, hle⟩, fun _ hpos' => Option.some.inj hpos' ▸ ?_, fun _ => hshare⟩
        omega

/-- **A move keeps what holds in all states.** -/
theorem IsOnTrack.move {s : Phase × Walk} (hs : e.IsOnTrack s) : e.IsOnTrack (e.move s) := by
  obtain ⟨phase, w⟩ := s
  cases phase with
  | resume pos => exact hs.resume h
  | propose pos => exact hs.propose h
  | descend pos => exact hs.descend h
  | stand pos? =>
    cases pos? with
    | none => exact hs
    | some pos => exact hs.stand h

end Move

/-! ### All moves -/

/-- An episode that starts within the tables is on track. -/
theorem isOnTrack_start (hpos : 0 < e.task.query.nrTables) (hw : e.Fits w) :
    e.IsOnTrack (.resume 0, w) :=
  ⟨hw, fun _ hpos' => Option.some.inj hpos' ▸ hpos, fun hne => absurd rfl hne⟩

/-- **All states of an episode are on track.** -/
theorem isOnTrack_of_reaches (h : e.Enumerates) {s s' : Phase × Walk} (hs : e.IsOnTrack s)
    (hreaches : e.Reaches s s') : e.IsOnTrack s' := by
  induction hreaches with
  | refl => exact hs
  | tail _ hmove ih => exact hmove ▸ ih.move h

end Episode

end AdaptiveJoin
