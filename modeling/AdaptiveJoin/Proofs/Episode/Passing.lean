import AdaptiveJoin.Proofs.Episode.Ahead

/-!
# Unfinished episodes pass index tuples

The loops may stop at a position that has run out, so there are more tuples at which an episode can
stop than tuples of rows.  Nevertheless an episode that is not over has passed a tuple of rows: it
lies behind the start of the episode, and the episode has come to it (`Episode.run_passes`).  Moving
on always comes to such a tuple (`Episode.Rises.passes`), and the first step of an episode moves on.
-/

namespace AdaptiveJoin

namespace Episode

variable {e : Episode} {pos : Nat}

/-- A row of every table. -/
structure HasTuple (e : Episode) (tuple : Tuple) : Prop where
  size : tuple.size = e.task.query.nrTables
  row_lt : ∀ table < e.task.query.nrTables, tuple.row table < e.cardinality table

/-- All tables have rows. -/
def HasRows (e : Episode) : Prop := ∀ table < e.task.query.nrTables, 0 < e.cardinality table

/-- On the way from one tuple to another one lies a tuple of rows, behind the first one. -/
def Passes (e : Episode) (a b : Tuple) : Prop :=
  ∃ y, e.HasTuple y ∧ e.order.rowsOf a < e.order.rowsOf y ∧ e.order.rowsOf y ≤ e.order.rowsOf b

theorem Passes.of_le {a a' b b' : Tuple} (h : e.Passes a b)
    (ha : e.order.rowsOf a' ≤ e.order.rowsOf a) (hb : e.order.rowsOf b ≤ e.order.rowsOf b') :
    e.Passes a' b' := by
  obtain ⟨y, hy, hlt, hle⟩ := h
  exact ⟨y, hy, lt_of_le_of_lt ha hlt, hle.trans hb⟩

section Passing

variable (h : e.IsAscending) (hrows : e.HasRows) {w : Walk} {start : Tuple}

include h hrows

/-- **Moving on passes a tuple of rows**: that of the position that has moved, with the deeper
tables at their first row. -/
theorem Rises.passes {bound : Nat} {next : Option Nat × Walk} (hnext : e.Rises bound w next)
    (hbound : bound ≤ e.task.query.nrTables)
    (houter : ∀ p', p' + 1 < bound → w.row (e.tableAt p') < e.cardinality (e.tableAt p'))
    {p' : Nat} (hp' : next.1 = some p') : e.Passes w.tuple next.2.tuple := by
  obtain ⟨hlt, hagree, hmoved, hin⟩ := hnext.moved p' hp'
  have hrow (k : Nat) (hk : k < e.task.query.nrTables) :
      (next.2.resetRows (e.deeper p')).row (e.tableAt k) =
        if p' < k then 0 else next.2.row (e.tableAt k) :=
    row_resetDeeper h.isPermutation _ hk
  -- The tuple passed has the new row, and the first rows at the deeper positions.
  refine ⟨(next.2.resetRows (e.deeper p')).tuple,
    ⟨(Walk.size_resetRows _ _).trans hnext.fits.size, fun table ht => ?_⟩, ?_, ?_⟩
  · obtain ⟨k, hk, rfl⟩ := h.isPermutation.exists_tableAt ht
    refine (hrow k hk).trans_lt ?_
    split
    · exact hrows _ ht
    · rename_i hge
      rcases Nat.lt_or_eq_of_le (Nat.not_lt.1 hge) with hk' | rfl
      · rw [row_eq_of_agree hagree hk']
        exact houter k (by omega)
      · exact hin
  · refine rowsOf_lt_of_row_lt h.isPermutation (show p' < _ by omega)
      (hagree.trans ((agree_resetDeeper h.isPermutation (by omega) _).mono (Nat.le_succ _))) ?_
    have hself := hrow p' (by omega)
    rw [if_neg (Nat.lt_irrefl _)] at hself
    exact hmoved.trans_eq hself.symm
  · refine JoinOrder.rowsOf_le_of_forall fun k hk _ => ?_
    rw [h.size_order] at hk
    refine (hrow k hk).trans_le ?_
    split
    · exact Nat.zero_le _
    · exact Nat.le_refl _

/-- What the loops have done since they started: they have ascended, and passed a tuple of rows once
a step is done. -/
structure Passage (e : Episode) (start : Tuple) (next : Option Nat × Walk) : Prop
    extends e.Ascent start next where
  passes : ∀ pos, next.1 = some pos → e.Passes start next.2.tuple ∨
    (next.2.steps = 0 ∧ (pos = e.last ∨ e.accepts pos next.2 = false))

theorem leave_passage (ht : e.Passage start (some pos, w)) : e.Passage start (e.leave pos w) := by
  have hat := ht.isWithin pos rfl
  refine ⟨leave_ascent h ht.toAscent, fun p' hp' => Or.inl ?_⟩
  exact ((leave_rises h hat.lt ht.fits).passes h hrows hat.lt.le
    (fun k hk => hat.outer_lt k (by omega)) hp').of_le (ht.le pos rfl) (le_refl _)

/-- **One step passes a tuple of rows, or a step before has done so.** -/
theorem visit_passage (ht : e.Passage start (some pos, w)) (hin : e.isExhausted pos w = false) :
    e.Passage start (e.visit pos w) := by
  have hat := ht.isWithin pos rfl
  -- However the walk has counted the step, moving on from it passes a tuple of rows.
  have hpropose (w' : Walk) (htuple : w'.tuple = w.tuple) (p' : Nat)
      (hp' : (e.proposeNext pos w').1 = some p') :
      e.Passes start (e.proposeNext pos w').2.tuple := by
    have hrow (table : Nat) : w'.row table = w.row table := by
      unfold Walk.row
      rw [htuple]
    have hfits : e.Fits w' := ⟨htuple ▸ ht.fits.size, fun table htable => by
      rw [hrow]
      exact ht.fits.row_le table htable⟩
    have hpasses := (proposeNext_rises h hat.lt hfits).passes h hrows hat.lt
      (fun k hk => by
        rw [hrow]
        exact hat.outer_lt k (by omega)) hp'
    exact hpasses.of_le (htuple ▸ ht.le pos rfl) (le_refl _)
  refine ⟨visit_ascent h ht.toAscent hin, fun p' hp' => Or.inl ?_⟩
  rcases e.visit_cases pos w with ⟨-, heq⟩ | ⟨-, -, heq⟩ | ⟨haccept, hpos, heq⟩
  · rw [heq] at hp' ⊢
    exact hpropose _ rfl p' hp'
  · rw [heq] at hp' ⊢
    exact hpropose _ rfl p' hp'
  · rw [heq]
    rcases ht.passes pos rfl with hpasses | ⟨-, hlast | hreject⟩
    · exact hpasses.of_le (le_refl _) (rowsOf_le_seek h (hat.succ_lt h hpos)
        (w := { w with steps := w.steps + 1 }) ⟨ht.fits.size, ht.fits.row_le⟩)
    · exact absurd hlast hpos
    · exact absurd (haccept.symm.trans hreject) (by decide)

variable {cursors : Array Cursor} (hstart : e.Fits ⟨start, cursors, #[], 0⟩)

include hstart

theorem resume_passage : e.Passage start (e.resume ⟨start, cursors, #[], 0⟩) := by
  refine ⟨(resume_ascent h hstart).1, fun p hp => ?_⟩
  obtain ⟨p', w', hp', hw', ⟨-, heq⟩ | ⟨-, hstop, heq⟩⟩ := resume_cases h hstart
  · rw [heq] at hp ⊢
    exact Or.inl (((leave_rises h hp' hw'.fits).passes h hrows hp'.le
      (fun k hk => hw'.outer_lt k (by omega)) hp).of_le hw'.le (le_refl _))
  · rw [heq] at hp ⊢
    obtain rfl := Option.some.inj hp
    exact Or.inr ⟨hw'.steps_eq, hstop⟩

/-- **An episode that is not over has passed a tuple of rows.** -/
theorem run_passes (hbudget : 0 < e.task.budget) {pos : Nat}
    (hpos : (e.run start cursors).1 = some pos) : e.Passes start (e.run start cursors).2.tuple := by
  have ht : e.Passage start (e.advance e.task.budget (e.resume ⟨start, cursors, #[], 0⟩)) :=
    advance_induction h (fun _ => Passage.toAscent) (fun _ _ ht _ => leave_passage h hrows ht)
      (fun _ _ ht hin => visit_passage h hrows ht hin) _ (resume_passage h hrows hstart)
  obtain ⟨next, hnext, ⟨-, hrun⟩ | ⟨-, hrun⟩⟩ := e.run_cases start cursors
  · rw [hrun] at hpos
    exact absurd hpos (by simp)
  · have hsteps := (run_steps h hstart).2 (by rw [hpos]; rfl)
    rw [hnext] at ht
    rw [hrun] at hpos hsteps ⊢
    exact (ht.passes pos hpos).resolve_right fun hzero => by omega

end Passing

end Episode

end AdaptiveJoin
