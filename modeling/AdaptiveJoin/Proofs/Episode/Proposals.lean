import AdaptiveJoin.Proofs.Episode.Phases
import AdaptiveJoin.Proofs.Episode.Words
import AdaptiveJoin.Proofs.Plan.Keys

/-!
# The rows that a position proposes

`Episode.Qualifies` says which rows a position may propose, in terms of the columns of the query:
not below its lower bound, in the worker's share at the outermost position, with the key that the
lookup asks for, and not covered at a deeper position.

* `Episode.seek_proposal` and `Episode.step_proposal`: `seek` and `step` move to the next of these
  rows and leave all other tables alone.

The lookups are those of indexes that have passed their check, so nothing is said about the sizes of
tables or about the constants of predicates.
-/

namespace AdaptiveJoin

namespace Episode

/-- A position may propose a row of its table for the rows of the outer positions. -/
structure Qualifies (e : Episode) (pos : Nat) (tuple : Tuple) (row : Nat) : Prop where
  lowerBound_le : e.lowerBound pos ≤ row
  inShare : pos = 0 → row % e.workers = e.worker
  /-- The row has the key that the lookup asks for, in the column for which it stands. -/
  hasKey : ∀ l, e.lookup? pos = some l → ∃ c key, e.task.query.target? (e.tableAt pos) l = some c ∧
    l.key? tuple = some key ∧ c.cellKey? row = some key
  uncovered : 0 < pos → e.snapshot.covers (e.tableAt pos) row = false

/-- A move to the next row from `bound` on that a position may propose, or behind the last row. -/
structure Proposal (e : Episode) (pos bound : Nat) (w w' : Walk) : Prop where
  moves : Walk.Moves (e.tableAt pos) w w'
  isNext : IsNext (e.Qualifies pos w.tuple) (e.cardinality (e.tableAt pos)) bound
    (w'.row (e.tableAt pos))

variable {e : Episode} {p : Planner} {pos : Nat} {w : Walk}

section Planned

variable (h : e.IsPlanned p) (hbuilt : p.catalog.IsBuiltFor p.query)

include h hbuilt

/-- A planned lookup of an episode runs through the rows of its column that have its key. -/
theorem IsPlanned.lists_rowsWith (hpos : pos < e.task.query.nrTables) {l : Lookup}
    (hl : e.lookup? pos = some l) :
    ∃ c, e.task.query.target? (e.tableAt pos) l = some c ∧
      l.Lists (e.cardinality (e.tableAt pos)) fun tuple => c.rowsWith (l.key? tuple) := by
  rw [h.lookup?_eq hpos] at hl
  have hlists := Planner.lists_rowsWith (h.contains_joined_tableAt hpos) hl hbuilt
  rwa [h.query_eq, ← h.cardinality_eq _ (h.tableAt_lt hpos)] at hlists

theorem IsPlanned.enumerates : e.Enumerates :=
  h.toEnumerates fun _ hpos _ hl =>
    have ⟨_, _, hlists⟩ := h.lists_rowsWith hbuilt hpos hl
    hlists.enumerates

/-- The lookup finds the rows that have its key. -/
theorem isFound_iff (hpos : pos < e.task.query.nrTables) {tuple : Tuple} {row : Nat} :
    e.IsFound pos tuple row ↔ ∀ l, e.lookup? pos = some l → ∃ c key,
      e.task.query.target? (e.tableAt pos) l = some c ∧ l.key? tuple = some key ∧
        c.cellKey? row = some key := by
  refine forall₂_congr fun l hl => ?_
  obtain ⟨c, hc, hlists⟩ := h.lists_rowsWith hbuilt hpos hl
  rw [hlists.finds_iff, Column.mem_rowsWith]
  constructor
  · rintro ⟨key, hkey, hcell⟩
    exact ⟨c, key, hc, hkey, hcell⟩
  · rintro ⟨c', key, hc', hkey, hcell⟩
    obtain rfl := Option.some.inj (hc.symm.trans hc')
    exact ⟨key, hkey, hcell⟩

/-- A position may propose its candidates from the lower bound on. -/
theorem qualifies_iff (hpos : pos < e.task.query.nrTables) {tuple : Tuple} {row : Nat} :
    e.Qualifies pos tuple row ↔ e.IsCandidate pos tuple row ∧ e.lowerBound pos ≤ row := by
  constructor
  · intro hrow
    exact ⟨⟨(isFound_iff h hbuilt hpos).2 hrow.hasKey, hrow.inShare, hrow.uncovered⟩,
      hrow.lowerBound_le⟩
  · rintro ⟨hcandidate, hle⟩
    exact ⟨hle, hcandidate.inShare, (isFound_iff h hbuilt hpos).1 hcandidate.isFound,
      hcandidate.uncovered⟩

variable (hpos : pos < e.task.query.nrTables)

include hpos

/-- **`seek` proposes the first row from the current one on that qualifies.** -/
theorem seek_proposal (hsize : w.tuple.size = e.task.query.nrTables) :
    e.Proposal pos (w.row (e.tableAt pos)) w (e.seek pos w) := by
  have hnext := seek_isNext (h.enumerates hbuilt) hpos hsize
  refine ⟨e.moves_seek pos w, hnext.le, fun hin => ?_, fun x hx hrow hle => ?_⟩
  · obtain ⟨hcandidate, hbound⟩ := hnext.holds hin
    exact ⟨(qualifies_iff h hbuilt hpos).2
      ⟨hcandidate, Nat.le_trans (Nat.le_max_right _ _) hbound⟩,
      Nat.le_trans (Nat.le_max_left _ _) hbound⟩
  · obtain ⟨hcandidate, hbound⟩ := (qualifies_iff h hbuilt hpos).1 hrow
    exact hnext.least x hx hcandidate (Nat.max_le.2 ⟨hle, hbound⟩)

/-- **`step` proposes the first row behind the current one that qualifies.** -/
theorem step_proposal (hfits : e.Fits w) (hshare : pos = 0 → e.HasShareRow w) :
    e.Proposal pos (w.row (e.tableAt pos) + 1) w (e.step pos w) := by
  have hlookups := h.enumerates hbuilt
  obtain ⟨hend, hlater⟩ := row_step (hlookups.isAscending h.nrTables_pos) hpos hfits.size
  rcases Nat.lt_or_ge (w.row (e.tableAt pos)) (e.cardinality (e.tableAt pos)) with hrow | hrow
  · have hnext := step_isNext hlookups hpos hfits.size fun hzero => by
      subst hzero
      exact (hshare rfl hrow).1
    refine ⟨e.moves_step pos w, hnext.le, fun hin => ?_, fun x hx hx' hle => ?_⟩
    · obtain ⟨hcandidate, hbound⟩ := hnext.holds hin
      refine ⟨(qualifies_iff h hbuilt hpos).2 ⟨hcandidate, ?_⟩, hbound⟩
      rcases Nat.eq_zero_or_pos pos with rfl | hdeeper
      · exact (hshare rfl hrow).2.trans (by omega)
      · exact lowerBound_le hdeeper (hcandidate.uncovered hdeeper)
    · exact hnext.least x hx ((qualifies_iff h hbuilt hpos).1 hx').1 hle
  · -- Behind the last row there is nothing left to propose.
    exact ⟨e.moves_step pos w, hend, fun hin => by have := hlater hin; omega,
      fun x hx _ hle => by omega⟩

end Planned

end Episode

end AdaptiveJoin
