import Mathlib.Data.Nat.ModEq
import AdaptiveJoin.Episode.Loops
import AdaptiveJoin.Proofs.Plan.Lookups
import AdaptiveJoin.Proofs.Progress.Offsets

/-!
# The rows that the loops visit

`Episode.IsCandidate` says which rows a position visits, given the rows of the outer positions: rows
of the worker's share at the outermost position, rows that the lookup finds, and at deeper positions
only rows that the snapshot does not cover.

* `Episode.seek_isNext`: `seek` moves to the least candidate from the current row on.
* `Episode.step_isNext`: `step` moves to the least candidate behind the current row.

Both leave all other rows as they are (`Walk.Moves`).
-/

namespace AdaptiveJoin

/-! ### The next number -/

/-- `r` is the least number below `n` from `bound` on that satisfies `P`, `n` if there is none. -/
structure IsNext (P : Nat → Prop) (n bound r : Nat) : Prop where
  le : r ≤ n
  holds : r < n → P r ∧ bound ≤ r
  least : ∀ x < n, P x → bound ≤ x → r ≤ x

theorem IsNext.congr {P Q : Nat → Prop} {n bound r : Nat} (h : IsNext P n bound r)
    (hPQ : ∀ x, P x ↔ Q x) : IsNext Q n bound r :=
  ⟨h.le, fun hr => ⟨(hPQ r).1 (h.holds hr).1, (h.holds hr).2⟩,
    fun x hx hQ => h.least x hx ((hPQ x).2 hQ)⟩

/-- The next number of a stronger property is found from the next number of a weaker one on. -/
theorem IsNext.trans {P Q : Nat → Prop} {n bound r s : Nat} (hr : IsNext P n bound r)
    (hs : IsNext (fun x => P x ∧ Q x) n r s) : IsNext (fun x => P x ∧ Q x) n bound s := by
  refine ⟨hs.le, fun hsn => ⟨(hs.holds hsn).1, ?_⟩, fun x hx hPQ hb =>
    hs.least x hx hPQ (hr.least x hx hPQ.1 hb)⟩
  have hle := (hs.holds hsn).2
  exact Nat.le_trans (hr.holds (by omega)).2 hle

/-- A number that satisfies the property is the next one from itself on. -/
theorem isNext_self {P : Nat → Prop} {n r : Nat} (hle : r ≤ n) (h : r < n → P r) :
    IsNext P n r r :=
  ⟨hle, fun hr => ⟨h hr, Nat.le_refl r⟩, fun _ _ _ hx => hx⟩

/-! ### Moving one table -/

namespace Walk

/-- One walk differs from another one in the row of one table and in cursors only. -/
structure Moves (table : Nat) (w w' : Walk) : Prop where
  size : w'.tuple.size = w.tuple.size
  row : ∀ t ≠ table, w'.row t = w.row t
  emitted : w'.emitted = w.emitted
  steps : w'.steps = w.steps

theorem Moves.refl (table : Nat) (w : Walk) : Moves table w w := ⟨rfl, fun _ _ => rfl, rfl, rfl⟩

theorem Moves.trans {table : Nat} {w w' w'' : Walk} (h : Moves table w w')
    (h' : Moves table w' w'') : Moves table w w'' :=
  ⟨h'.size.trans h.size, fun t ht => (h'.row t ht).trans (h.row t ht),
    h'.emitted.trans h.emitted, h'.steps.trans h.steps⟩

theorem row_setRow (w : Walk) (table row other : Nat) :
    (w.setRow table row).row other =
      if table = other ∧ other < w.tuple.size then row else w.row other :=
  Tuple.row_setIfInBounds w.tuple table row other

theorem row_setRow_self {w : Walk} {table : Nat} (h : table < w.tuple.size) (row : Nat) :
    (w.setRow table row).row table = row := by
  rw [row_setRow, if_pos ⟨rfl, h⟩]

@[simp]
theorem size_setRow (w : Walk) (table row : Nat) :
    (w.setRow table row).tuple.size = w.tuple.size := by simp [setRow]

theorem moves_setRow (w : Walk) (table row : Nat) : Moves table w (w.setRow table row) :=
  ⟨size_setRow w table row, fun t ht => by rw [row_setRow, if_neg fun h => ht h.1.symm], rfl, rfl⟩

end Walk

/-! ### Episodes -/

namespace Episode

/-- An episode runs the plan that a planner has made for a permutation of the tables. -/
structure IsPlanned (e : Episode) (p : Planner) : Prop where
  isPermutation : e.order.IsPermutation e.task.query.nrTables
  nrTables_pos : 0 < e.task.query.nrTables
  nrTables_le : e.task.query.nrTables ≤ maxTables
  plan_eq : e.plan = p.plan e.order
  query_eq : p.query = e.task.query
  partitioned_eq : p.partitioned = decide (1 < e.workers)
  cardinality_eq : ∀ table < e.task.query.nrTables,
    e.cardinality table = e.task.query.cardinality table
  worker_lt : e.worker < e.workers

/-- An episode runs a plan whose lookups are complete, over the rows of a query whose predicates are
understood. -/
structure IsWellFormed (e : Episode) (p : Planner) : Prop extends e.IsPlanned p where
  explains : ∀ q ∈ e.task.query.predicates, e.task.query.Explains q
  tables_ne_nil : ∀ q ∈ e.task.query.predicates, q.tables ≠ []
  masked_eq : p.masked = e.task.masked
  hasCompleteLookups : p.HasCompleteLookups
  snapshot_eq : ∃ offsets, e.snapshot = .ofOffsets e.workers e.task.query.nrTables offsets

variable {e : Episode} {p : Planner} {pos : Nat}

namespace IsPlanned

theorem size_order (h : e.IsPlanned p) : e.order.size = e.task.query.nrTables :=
  h.isPermutation.size_eq

theorem tableAt_lt (h : e.IsPlanned p) (hpos : pos < e.task.query.nrTables) :
    e.tableAt pos < e.task.query.nrTables :=
  h.isPermutation.tableAt_lt hpos

theorem tableAt_inj (h : e.IsPlanned p) {pos' : Nat} (hpos : pos < e.task.query.nrTables)
    (hpos' : pos' < e.task.query.nrTables) (heq : e.tableAt pos = e.tableAt pos') : pos = pos' :=
  h.isPermutation.tableAt_inj hpos hpos' heq

theorem position?_eq (h : e.IsPlanned p) (hpos : pos < e.task.query.nrTables) :
    e.plan.position? pos = some (p.position (e.order.joined pos) (e.tableAt pos)) := by
  rw [h.plan_eq, p.position?_plan (h.size_order ▸ hpos), tableAt]

theorem lookup?_eq (h : e.IsPlanned p) (hpos : pos < e.task.query.nrTables) :
    e.lookup? pos = p.lookup? (e.order.joined pos) (e.tableAt pos) := by
  unfold lookup?
  rw [h.position?_eq hpos, Option.bind_some, Planner.position_lookup]

theorem checks_eq (h : e.IsPlanned p) (hpos : pos < e.task.query.nrTables) :
    e.checks pos = (p.position (e.order.joined pos) (e.tableAt pos)).checks := by
  unfold checks
  rw [h.position?_eq hpos, Option.map_some, Option.getD_some]

theorem contains_joined_iff (h : e.IsPlanned p) (hpos : pos < e.task.query.nrTables)
    {table : Nat} : (e.order.joined pos).contains table = true ↔ ∃ p < pos, e.tableAt p = table :=
  h.isPermutation.contains_joined_iff h.nrTables_le hpos.le

/-- The table at a position is not joined before it. -/
theorem contains_joined_tableAt (h : e.IsPlanned p) (hpos : pos < e.task.query.nrTables) :
    (e.order.joined pos).contains (e.tableAt pos) = false := by
  rw [Bool.eq_false_iff, ne_eq, h.contains_joined_iff hpos]
  rintro ⟨pos', hlt, heq⟩
  have := h.tableAt_inj (by omega) hpos heq
  omega

end IsPlanned

/-- An episode runs the loops of a permutation of the tables, for one of several workers, and its
lookups enumerate rows.  This is all that the search for candidates relies on. -/
structure Enumerates (e : Episode) : Prop where
  isPermutation : e.order.IsPermutation e.task.query.nrTables
  worker_lt : e.worker < e.workers
  enumerates : ∀ pos < e.task.query.nrTables, ∀ l, e.lookup? pos = some l →
    l.Enumerates (e.cardinality (e.tableAt pos))
  /-- The key of a lookup stands at an outer position. -/
  exists_source : ∀ pos < e.task.query.nrTables, ∀ l, e.lookup? pos = some l →
    ∀ source column, l.source = .cell source column → ∃ p < pos, e.tableAt p = source.table
  /-- The outermost position has a lookup only if there is one worker. -/
  workers_eq_one : ∀ l, e.lookup? 0 = some l → e.workers = 1

/-- A planned episode searches for candidates if its lookups enumerate rows. -/
theorem IsPlanned.toEnumerates (h : e.IsPlanned p)
    (henumerates : ∀ pos < e.task.query.nrTables, ∀ l, e.lookup? pos = some l →
      l.Enumerates (e.cardinality (e.tableAt pos))) : e.Enumerates where
  isPermutation := h.isPermutation
  worker_lt := h.worker_lt
  enumerates := henumerates
  exists_source pos hpos l hl source column hsource := by
    rw [h.lookup?_eq hpos] at hl
    exact (h.contains_joined_iff hpos).1 (Planner.source_of_lookup? hl hsource).1
  workers_eq_one l hl := by
    rw [h.lookup?_eq h.nrTables_pos] at hl
    -- Without a joined table a lookup by a constant remains, which several workers do not use.
    have hempty := (h.isPermutation.isEmpty_joined_iff h.nrTables_le (Nat.zero_le _)).2 rfl
    have := Planner.lookup?_of_isEmpty hl hempty
    rw [h.partitioned_eq, decide_eq_false_iff_not] at this
    have := h.worker_lt
    omega

namespace IsWellFormed

theorem describes (h : e.IsWellFormed p) :
    ∀ q ∈ p.query.predicates, p.query.Describes q := by
  rw [h.query_eq]
  exact fun q hq => (h.explains q hq).toDescribes

theorem tables_lt (h : e.IsWellFormed p) :
    ∀ q ∈ p.query.predicates, ∀ t ∈ q.tables, t < maxTables := by
  rw [h.query_eq]
  exact fun q hq t ht => ((h.explains q hq).tables_lt t ht).2

theorem covers_eq (h : e.IsWellFormed p) (table row : Nat) :
    e.snapshot.covers table row =
      decide (row < e.snapshot.shareOffset table (row % e.workers)) := by
  obtain ⟨offsets, heq⟩ := h.snapshot_eq
  rw [heq]
  exact Snapshot.covers_ofOffsets (by have := h.worker_lt; omega) _ offsets table row

theorem enumerates (h : e.IsWellFormed p) : e.Enumerates := by
  refine h.toIsPlanned.toEnumerates fun pos hpos l hl => ?_
  rw [h.lookup?_eq hpos] at hl
  rw [h.cardinality_eq _ (h.tableAt_lt hpos), ← h.query_eq]
  exact h.hasCompleteLookups.enumerates _ _ l (h.contains_joined_tableAt hpos) hl

end IsWellFormed

namespace Enumerates

theorem tableAt_lt (h : e.Enumerates) (hpos : pos < e.task.query.nrTables) :
    e.tableAt pos < e.task.query.nrTables :=
  h.isPermutation.tableAt_lt hpos

/-- A lookup finds the same rows for tuples that agree at the outer positions. -/
theorem finds_congr (h : e.Enumerates) (hpos : pos < e.task.query.nrTables) {l : Lookup}
    (hl : e.lookup? pos = some l) {a b : Tuple} (hagree : e.order.Agree pos a b) (row : Nat) :
    l.Finds a row ↔ l.Finds b row := by
  refine Lookup.finds_congr (fun source column hsource => ?_) row
  obtain ⟨p', hlt, heq⟩ := h.exists_source pos hpos l hl source column hsource
  rw [← heq]
  exact hagree p' hlt

end Enumerates

/-- Rows that a deeper position leaves out from the start are covered. -/
theorem lowerBound_le (hpos : 0 < pos) {row : Nat}
    (hcovers : e.snapshot.covers (e.tableAt pos) row = false) : e.lowerBound pos ≤ row := by
  unfold Snapshot.covers at hcovers
  rw [Bool.or_eq_false_iff, decide_eq_false_iff_not] at hcovers
  unfold lowerBound
  rw [if_neg (by omega)]
  exact Nat.not_lt.1 hcovers.1

/-! ### Candidates -/

/-- The lookup at a position finds a row, if there is a lookup. -/
def IsFound (e : Episode) (pos : Nat) (tuple : Tuple) (row : Nat) : Prop :=
  ∀ l, e.lookup? pos = some l → l.Finds tuple row

/-- A position visits a row for the rows of the outer positions. -/
structure IsCandidate (e : Episode) (pos : Nat) (tuple : Tuple) (row : Nat) : Prop where
  isFound : e.IsFound pos tuple row
  inShare : pos = 0 → row % e.workers = e.worker
  uncovered : 0 < pos → e.snapshot.covers (e.tableAt pos) row = false

theorem isFound_congr (h : e.Enumerates) (hpos : pos < e.task.query.nrTables) {a b : Tuple}
    (hagree : e.order.Agree pos a b) (row : Nat) : e.IsFound pos a row ↔ e.IsFound pos b row :=
  forall₂_congr fun _ hl => h.finds_congr hpos hl hagree row

theorem isCandidate_congr (h : e.Enumerates) (hpos : pos < e.task.query.nrTables)
    {a b : Tuple} (hagree : e.order.Agree pos a b) {row : Nat} (hrow : e.IsCandidate pos a row) :
    e.IsCandidate pos b row :=
  ⟨(isFound_congr h hpos hagree row).1 hrow.isFound, hrow.inShare, hrow.uncovered⟩

/-- Moving the table at a position leaves the outer positions alone. -/
theorem agree_of_moves (h : e.order.IsPermutation e.task.query.nrTables)
    (hpos : pos < e.task.query.nrTables) {w w' : Walk}
    (hmoves : Walk.Moves (e.tableAt pos) w w') : e.order.Agree pos w.tuple w'.tuple := by
  intro p' hlt
  refine (hmoves.row _ fun heq => ?_).symm
  have := h.tableAt_inj (show p' < _ by omega) hpos heq
  omega

/-! ### Lookups -/

theorem moves_lookUp (e : Episode) (l : Lookup) (table : Nat) (after : Int) (w : Walk) :
    Walk.Moves table w (e.lookUp l table after w) :=
  ⟨(Walk.moves_setRow w table _).size, (Walk.moves_setRow w table _).row, rfl, rfl⟩

theorem row_lookUp_self {e : Episode} {l : Lookup} {table : Nat} {w : Walk}
    (ht : table < w.tuple.size) (after : Int) :
    (e.lookUp l table after w).row table =
      (l.next w.tuple after (w.cursors[table]?.getD .fresh)).1.getD (e.cardinality table) :=
  Walk.row_setRow_self ht _

/-- A lookup moves a table to the next row that it finds. -/
theorem lookUp_isNext {l : Lookup} {table : Nat} (hl : l.Enumerates (e.cardinality table))
    {w : Walk} (ht : table < w.tuple.size) {after : Int} {bound : Nat}
    (hafter : after + 1 = bound) :
    IsNext (l.Finds w.tuple) (e.cardinality table) bound
      ((e.lookUp l table after w).row table) := by
  rw [row_lookUp_self ht]
  cases hnext : (l.next w.tuple after (w.cursors[table]?.getD .fresh)).1 with
  | none =>
    -- Without an answer the walk goes to the end of the table.
    have hnone := hl.next_eq_none _ _ _ hnext
    refine ⟨Nat.le_refl _, fun hlt => absurd hlt (Nat.lt_irrefl _), fun x _ hx hb => ?_⟩
    have := hnone x hx
    omega
  | some r =>
    obtain ⟨hfinds, hlt, hleast⟩ := hl.next_eq_some _ _ _ _ hnext
    refine ⟨(hl.lt _ _ hfinds).le, fun _ => ⟨hfinds, ?_⟩, fun x _ hx hb => hleast x hx (by omega)⟩
    show bound ≤ r
    omega

/-! ### Passing over covered rows -/

/-- Moves a position to the row behind the current one that its lookup finds next. -/
def moveOn (e : Episode) (pos : Nat) (w : Walk) : Walk :=
  match e.lookup? pos with
  | some l => e.lookUp l (e.tableAt pos) (w.row (e.tableAt pos)) w
  | none => w.setRow (e.tableAt pos) (w.row (e.tableAt pos) + 1)

theorem skipCovered_succ (e : Episode) (pos rounds : Nat) (w : Walk) :
    e.skipCovered pos (rounds + 1) w =
      if w.row (e.tableAt pos) < e.cardinality (e.tableAt pos) &&
          e.snapshot.covers (e.tableAt pos) (w.row (e.tableAt pos)) then
        e.skipCovered pos rounds (e.moveOn pos w)
      else w := rfl

theorem moves_moveOn (e : Episode) (pos : Nat) (w : Walk) :
    Walk.Moves (e.tableAt pos) w (e.moveOn pos w) := by
  unfold moveOn
  split
  · exact e.moves_lookUp _ _ _ w
  · exact Walk.moves_setRow w _ _

theorem moves_skipCovered (e : Episode) (pos rounds : Nat) (w : Walk) :
    Walk.Moves (e.tableAt pos) w (e.skipCovered pos rounds w) := by
  induction rounds generalizing w with
  | zero => exact .refl _ w
  | succ rounds ih =>
    rw [skipCovered_succ]
    split
    · exact (e.moves_moveOn pos w).trans (ih _)
    · exact .refl _ w

section SkipCovered

variable {w : Walk} (h : e.Enumerates) (hpos : pos < e.task.query.nrTables)
  (hsize : w.tuple.size = e.task.query.nrTables)

include h hpos hsize

theorem moveOn_isNext (hlt : w.row (e.tableAt pos) < e.cardinality (e.tableAt pos)) :
    IsNext (e.IsFound pos w.tuple) (e.cardinality (e.tableAt pos)) (w.row (e.tableAt pos) + 1)
      ((e.moveOn pos w).row (e.tableAt pos)) := by
  have ht : e.tableAt pos < w.tuple.size := hsize ▸ h.tableAt_lt hpos
  unfold moveOn
  split
  · rename_i l hl
    apply (lookUp_isNext (h.enumerates pos hpos _ hl) ht (by omega)).congr
    intro x
    simp [IsFound, hl]
  · rename_i hl
    rw [Walk.row_setRow_self ht]
    exact isNext_self hlt fun _ l hl' => absurd (hl.symm.trans hl') (by simp)

/-- Passing over covered rows moves to the first row found that is not covered. -/
theorem skipCovered_isNext (rounds : Nat)
    (hle : w.row (e.tableAt pos) ≤ e.cardinality (e.tableAt pos))
    (hfound : w.row (e.tableAt pos) < e.cardinality (e.tableAt pos) →
      e.IsFound pos w.tuple (w.row (e.tableAt pos)))
    (hrounds : e.cardinality (e.tableAt pos) ≤ w.row (e.tableAt pos) + rounds) :
    IsNext (fun r => e.IsFound pos w.tuple r ∧ e.snapshot.covers (e.tableAt pos) r = false)
      (e.cardinality (e.tableAt pos)) (w.row (e.tableAt pos))
      ((e.skipCovered pos rounds w).row (e.tableAt pos)) := by
  induction rounds generalizing w with
  | zero => exact isNext_self hle fun hlt => absurd hrounds (by omega)
  | succ rounds ih =>
    rw [skipCovered_succ]
    split
    · rename_i hskip
      rw [Bool.and_eq_true, decide_eq_true_eq] at hskip
      -- The current row is covered, so the row found next takes its place.
      have hnext := moveOn_isNext h hpos hsize hskip.1
      have hmoves := e.moves_moveOn pos w
      have hfound' (r : Nat) := isFound_congr h hpos (agree_of_moves h.isPermutation hpos hmoves) r
      have hlater : w.row (e.tableAt pos) + 1 ≤ (e.moveOn pos w).row (e.tableAt pos) := by
        rcases Nat.lt_or_ge ((e.moveOn pos w).row (e.tableAt pos)) (e.cardinality (e.tableAt pos))
          with hlt | hge
        · exact (hnext.holds hlt).2
        · omega
      have hrest := ih (hmoves.size.trans hsize) hnext.le
        (fun hlt => (hfound' _).1 (hnext.holds hlt).1) (by omega)
      have hnext' := hnext.trans (hrest.congr fun r => and_congr_left fun _ => (hfound' r).symm)
      refine ⟨hnext'.le, fun hlt => ⟨(hnext'.holds hlt).1, ?_⟩, fun x hx hcand hb => ?_⟩
      · have := (hnext'.holds hlt).2
        omega
      · -- The current row is covered, so another row is meant.
        apply hnext'.least x hx hcand
        rcases Nat.eq_or_lt_of_le hb with rfl | hlt
        · exact absurd hskip.2 (by rw [hcand.2]; decide)
        · exact hlt
    · rename_i hstay
      -- The loop stays at a row that is not covered, or behind the last one.
      refine isNext_self hle fun hlt => ⟨hfound hlt, ?_⟩
      rw [Bool.and_eq_true, decide_eq_true_eq] at hstay
      exact Bool.eq_false_iff.2 fun hcovers => hstay ⟨hlt, hcovers⟩

end SkipCovered

theorem moves_skipJoined (e : Episode) (pos : Nat) (w : Walk) :
    Walk.Moves (e.tableAt pos) w (e.skipJoined pos w) := by
  unfold skipJoined
  split
  · exact .refl _ w
  · exact e.moves_skipCovered pos _ w

/-- A row found from some row on leads to the next candidate. -/
theorem skipJoined_isNext (h : e.Enumerates) (hpos : pos < e.task.query.nrTables) {w : Walk}
    (hsize : w.tuple.size = e.task.query.nrTables) {bound : Nat}
    (hnext : IsNext (fun r => e.IsFound pos w.tuple r ∧ (pos = 0 → r % e.workers = e.worker))
      (e.cardinality (e.tableAt pos)) bound (w.row (e.tableAt pos))) :
    IsNext (e.IsCandidate pos w.tuple) (e.cardinality (e.tableAt pos)) bound
      ((e.skipJoined pos w).row (e.tableAt pos)) := by
  unfold skipJoined
  split
  · -- No row of the first table is passed over.
    rename_i hzero
    exact hnext.congr fun r =>
      ⟨fun ⟨hfound, hshare⟩ => ⟨hfound, hshare, fun hlt => absurd hzero (by omega)⟩,
        fun hr => ⟨hr.isFound, hr.inShare⟩⟩
  · rename_i hne
    -- First the next row that is found, then behind it the next one that is not covered.
    have hskip := skipCovered_isNext h hpos hsize (e.cardinality (e.tableAt pos)) hnext.le
      (fun hlt => (hnext.holds hlt).1.1) (by omega)
    have htrans := IsNext.trans (hnext.congr (Q := e.IsFound pos w.tuple) fun r =>
      ⟨And.left, fun hfound => ⟨hfound, fun hzero => absurd hzero hne⟩⟩) hskip
    exact htrans.congr fun r =>
      ⟨fun ⟨hfound, hcovers⟩ => ⟨hfound, fun hzero => absurd hzero hne, fun _ => hcovers⟩,
        fun hr => ⟨hr.isFound, hr.uncovered (by omega)⟩⟩

/-! ### `seek` and `step` -/

/-- The row from which `seek` goes on. -/
def seekStart (e : Episode) (pos : Nat) (w : Walk) : Nat :=
  let bounded := max (w.row (e.tableAt pos)) (e.lowerBound pos)
  if pos = 0 then min (e.alignToShare bounded) (e.cardinality (e.tableAt pos)) else bounded

/-- Where `seek` moves a position before it passes over covered rows. -/
def seekFound (e : Episode) (pos : Nat) (w : Walk) : Walk :=
  if e.seekStart pos w < e.cardinality (e.tableAt pos) then
    match e.lookup? pos with
    | some l => e.lookUp l (e.tableAt pos) ((e.seekStart pos w : Int) - 1) w
    | none => w.setRow (e.tableAt pos) (e.seekStart pos w)
  else w.setRow (e.tableAt pos) (e.cardinality (e.tableAt pos))

/-- Where `step` moves a position before it passes over covered rows. -/
def stepFound (e : Episode) (pos : Nat) (w : Walk) : Walk :=
  match e.lookup? pos with
  | some l => e.lookUp l (e.tableAt pos) (w.row (e.tableAt pos)) w
  | none =>
    w.setRow (e.tableAt pos)
      (min (if pos = 0 then w.row (e.tableAt pos) + e.workers else w.row (e.tableAt pos) + 1)
        (e.cardinality (e.tableAt pos)))

theorem moves_seekFound (e : Episode) (pos : Nat) (w : Walk) :
    Walk.Moves (e.tableAt pos) w (e.seekFound pos w) := by
  unfold seekFound
  split
  · split
    · exact e.moves_lookUp _ _ _ w
    · exact Walk.moves_setRow w _ _
  · exact Walk.moves_setRow w _ _

theorem moves_stepFound (e : Episode) (pos : Nat) (w : Walk) :
    Walk.Moves (e.tableAt pos) w (e.stepFound pos w) := by
  unfold stepFound
  split
  · exact e.moves_lookUp _ _ _ w
  · exact Walk.moves_setRow w _ _

theorem moves_seek (e : Episode) (pos : Nat) (w : Walk) :
    Walk.Moves (e.tableAt pos) w (e.seek pos w) :=
  (e.moves_seekFound pos w).trans (e.moves_skipJoined pos _)

theorem moves_step (e : Episode) (pos : Nat) (w : Walk) :
    Walk.Moves (e.tableAt pos) w (e.step pos w) :=
  (e.moves_stepFound pos w).trans (e.moves_skipJoined pos _)

section Moves

variable {w : Walk} (h : e.Enumerates) (hpos : pos < e.task.query.nrTables)
  (hsize : w.tuple.size = e.task.query.nrTables)

/-- `seek` goes on from no row before the lower bound. -/
theorem le_seekStart (hlt : e.seekStart pos w < e.cardinality (e.tableAt pos)) :
    max (w.row (e.tableAt pos)) (e.lowerBound pos) ≤ e.seekStart pos w := by
  simp only [seekStart] at hlt ⊢
  split at hlt
  · rename_i hzero
    rw [if_pos hzero, Nat.min_eq_left (by omega)]
    exact Nat.le_add_right _ _
  · rename_i hne
    rw [if_neg hne]

include h in
/-- At the outermost position it goes on from a row of the share. -/
theorem seekStart_mod (hlt : e.seekStart pos w < e.cardinality (e.tableAt pos)) (hzero : pos = 0) :
    e.seekStart pos w % e.workers = e.worker := by
  simp only [seekStart, if_pos hzero] at hlt ⊢
  rw [Nat.min_eq_left (by omega)]
  exact nextOfResidue_mod h.worker_lt

include h in
/-- `seek` passes over no row of the share from the lower bound on. -/
theorem seekStart_le {x : Nat} (hb : max (w.row (e.tableAt pos)) (e.lowerBound pos) ≤ x)
    (hshare : pos = 0 → x % e.workers = e.worker) : e.seekStart pos w ≤ x := by
  simp only [seekStart]
  split
  · rename_i hzero
    exact Nat.le_trans (Nat.min_le_left _ _) (nextOfResidue_le h.worker_lt hb (hshare hzero))
  · exact hb

include h hpos hsize

/-- What is found leads to the next candidate once covered rows are passed over. -/
theorem skipJoined_isNext_of_moves {w' : Walk} (hmoves : Walk.Moves (e.tableAt pos) w w')
    {bound : Nat}
    (hnext : IsNext (fun r => e.IsFound pos w.tuple r ∧ (pos = 0 → r % e.workers = e.worker))
      (e.cardinality (e.tableAt pos)) bound (w'.row (e.tableAt pos))) :
    IsNext (e.IsCandidate pos w.tuple) (e.cardinality (e.tableAt pos)) bound
      ((e.skipJoined pos w').row (e.tableAt pos)) := by
  have hagree := agree_of_moves h.isPermutation hpos hmoves
  refine (skipJoined_isNext h hpos (hmoves.size.trans hsize) (hnext.congr fun r =>
    and_congr_left fun _ => isFound_congr h hpos hagree r)).congr fun r => ?_
  exact ⟨isCandidate_congr h hpos hagree.symm, isCandidate_congr h hpos hagree⟩

/-- A lookup at the outermost position finds rows of the only share. -/
theorem lookUp_isNext_inShare {l : Lookup} (hl : e.lookup? pos = some l) {after : Int} {bound : Nat}
    (hafter : after + 1 = bound) :
    IsNext (fun r => e.IsFound pos w.tuple r ∧ (pos = 0 → r % e.workers = e.worker))
      (e.cardinality (e.tableAt pos)) bound
      ((e.lookUp l (e.tableAt pos) after w).row (e.tableAt pos)) := by
  refine (lookUp_isNext (h.enumerates pos hpos _ hl) (hsize ▸ h.tableAt_lt hpos) hafter).congr
    fun r => ⟨fun hfinds => ⟨fun l' hl' => ?_, fun hzero => ?_⟩, fun hr => hr.1 l hl⟩
  · obtain rfl := Option.some.inj (hl.symm.trans hl')
    exact hfinds
  · subst hzero
    have hone := h.workers_eq_one _ hl
    have hworker := h.worker_lt
    rw [hone, Nat.mod_one]
    omega

/-- **`seek` moves to the least candidate from the current row on, at least the lower bound.** -/
theorem seek_isNext :
    IsNext (e.IsCandidate pos w.tuple) (e.cardinality (e.tableAt pos))
      (max (w.row (e.tableAt pos)) (e.lowerBound pos)) ((e.seek pos w).row (e.tableAt pos)) := by
  have ht : e.tableAt pos < w.tuple.size := hsize ▸ h.tableAt_lt hpos
  apply skipJoined_isNext_of_moves h hpos hsize (e.moves_seekFound pos w)
  unfold seekFound
  split
  · rename_i hin
    have hb := le_seekStart hin
    have hshare := seekStart_mod h hin
    split
    · rename_i l hl
      -- The lookup starts just before the row, so the row itself may be found.
      have hnext := lookUp_isNext_inShare h hpos hsize hl
        (show ((e.seekStart pos w : Int) - 1) + 1 = e.seekStart pos w by omega)
      exact ⟨hnext.le, fun hr => ⟨(hnext.holds hr).1, Nat.le_trans hb (hnext.holds hr).2⟩,
        fun x hx hfound hxb => hnext.least x hx hfound (seekStart_le h hxb hfound.2)⟩
    · rename_i hl
      rw [Walk.row_setRow_self ht]
      -- Without a lookup, every row of the share is found.
      exact ⟨hin.le, fun _ => ⟨⟨fun l hl' => absurd (hl.symm.trans hl') (by simp), hshare⟩, hb⟩,
        fun x hx hfound hxb => seekStart_le h hxb hfound.2⟩
  · rename_i hout
    rw [Walk.row_setRow_self ht]
    -- The share has no row from there on.
    refine ⟨Nat.le_refl _, fun hr => absurd hr (Nat.lt_irrefl _), fun x hx hfound hxb => ?_⟩
    have := seekStart_le h hxb hfound.2
    omega

/-- **`step` moves to the least candidate behind the current row**, which has to belong to the share
at the outermost position. -/
theorem step_isNext (hshare : pos = 0 → w.row (e.tableAt pos) % e.workers = e.worker) :
    IsNext (e.IsCandidate pos w.tuple) (e.cardinality (e.tableAt pos))
      (w.row (e.tableAt pos) + 1) ((e.step pos w).row (e.tableAt pos)) := by
  have ht : e.tableAt pos < w.tuple.size := hsize ▸ h.tableAt_lt hpos
  have hworker := h.worker_lt
  apply skipJoined_isNext_of_moves h hpos hsize (e.moves_stepFound pos w)
  unfold stepFound
  split
  · rename_i l hl
    exact lookUp_isNext_inShare h hpos hsize hl (by omega)
  · rename_i hl
    have hfound (x : Nat) : e.IsFound pos w.tuple x :=
      fun l hl' => absurd (hl.symm.trans hl') (by simp)
    rw [Walk.row_setRow_self ht]
    -- At the outermost position the rows of a share are as far apart as there are workers.
    by_cases hzero : pos = 0
    · rw [if_pos hzero]
      refine ⟨Nat.min_le_right _ _, fun hr => ⟨⟨hfound _, fun _ => ?_⟩, by omega⟩,
        fun x hx hcand hb => ?_⟩
      · rw [Nat.min_eq_left (by omega), Nat.add_mod_right]
        exact hshare hzero
      · have hmod : w.row (e.tableAt pos) ≡ x [MOD e.workers] :=
          (hshare hzero).trans (hcand.2 hzero).symm
        exact Nat.le_trans (Nat.min_le_left _ _) (hmod.add_le_of_lt hb)
    · rw [if_neg hzero]
      refine ⟨Nat.min_le_right _ _, fun hr => ⟨⟨hfound _, fun hzero' => absurd hzero' hzero⟩,
        by omega⟩, fun x hx hcand hb => by omega⟩

end Moves

end Episode

end AdaptiveJoin
