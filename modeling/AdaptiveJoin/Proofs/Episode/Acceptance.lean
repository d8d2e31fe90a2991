import AdaptiveJoin.Proofs.Episode.Candidates

/-!
# The rows that the loops accept

A position accepts a row by the predicates that it checks and the filter of its table; this depends
on the rows up to the position only (`Episode.accepts_congr`).

* `Episode.IsAccepted.isResult`: a tuple that all positions accept is a result.
* `Episode.isTarget_of_isResult`: a result of the share that the snapshot does not cover is one that
  the loops reach (`Episode.IsTarget`).
-/

namespace AdaptiveJoin

/-- The filters of a join are exact: they hold the rows on which all predicates hold that only their
table decides. -/
def Task.HasExactMasks (t : Task) : Prop :=
  ∀ table mask, t.mask? table = some mask → ∀ tuple, t.query.HasTuple tuple →
    (mask[tuple.row table]?.getD false = true ↔
      ∀ id ∈ t.query.unaryPredicates table, t.query.holds id tuple = true)

theorem Task.mask?_ofQuery {q : Query} {masks : Array (Option RowMask)} {config : Config}
    {table : Nat} {mask : RowMask} (h : (Task.ofQuery q masks config).mask? table = some mask) :
    table < q.nrTables ∧ masks[table]?.join = some mask := by
  unfold mask? at h
  unfold ofQuery at h
  rw [Array.getElem?_map] at h
  by_cases ht : table < q.nrTables
  · exact ⟨ht, by simpa [ht] using h⟩
  · simp [ht] at h

namespace Episode

variable {e : Episode} {p : Planner} {pos : Nat}

/-! ### Rows that are accepted -/

section Accepts

variable (h : e.IsWellFormed p)

include h

/-- The predicates checked at a position look at this position and the outer ones only. -/
theorem holds_congr (hpos : pos < e.task.query.nrTables) {a b : Tuple}
    (ha : a.size = e.task.query.nrTables) (hb : b.size = e.task.query.nrTables)
    (hagree : e.order.Agree (pos + 1) a b) {id : Nat} (hid : id ∈ e.checks pos) :
    e.task.query.holds id a = e.task.query.holds id b := by
  rw [h.checks_eq hpos] at hid
  have hlt := h.tableAt_lt hpos
  have hle := h.nrTables_le
  obtain ⟨predicate, hpredicate, -, htables⟩ := Planner.tables_of_mem_checks
    h.describes h.tables_lt (show e.tableAt pos < maxTables by omega) hid
  rw [h.query_eq] at hpredicate
  rw [Query.holds, Query.holds, hpredicate]
  -- A predicate that is checked here reads tables joined so far only, on whose rows the tuples
  -- agree.
  have heval : predicate.eval a = predicate.eval b := by
    apply (h.explains predicate (Array.mem_of_getElem? hpredicate)).isLocal a b ha hb
    intro t ht
    rcases htables t ht with rfl | ht
    · exact hagree pos (by omega)
    · obtain ⟨p', hlt', rfl⟩ := (h.contains_joined_iff hpos).1 ht
      exact hagree p' (by omega)
  simp only [heval]

/-- Whether a position accepts its row depends on this position and the outer ones only. -/
theorem accepts_congr (hpos : pos < e.task.query.nrTables) {w w' : Walk}
    (hw : w.tuple.size = e.task.query.nrTables) (hw' : w'.tuple.size = e.task.query.nrTables)
    (hagree : e.order.Agree (pos + 1) w.tuple w'.tuple) : e.accepts pos w = e.accepts pos w' := by
  have hrow : w.row (e.tableAt pos) = w'.row (e.tableAt pos) := hagree pos (by omega)
  have hchecks : ((e.checks pos).all fun id => e.task.query.holds id w.tuple) =
      (e.checks pos).all fun id => e.task.query.holds id w'.tuple := by
    rw [Bool.eq_iff_iff, List.all_eq_true, List.all_eq_true]
    exact forall₂_congr fun id hid => by rw [holds_congr h hpos hw hw' hagree hid]
  simp only [accepts, hrow, hchecks]

end Accepts

/-! ### Tuples that are accepted -/

/-- All positions accept the rows of a tuple, and its outermost row belongs to the share. -/
structure IsAccepted (e : Episode) (tuple : Tuple) : Prop where
  size : tuple.size = e.task.query.nrTables
  row_lt : ∀ pos < e.task.query.nrTables, tuple.row (e.tableAt pos) < e.cardinality (e.tableAt pos)
  accepts : ∀ pos < e.task.query.nrTables, e.accepts pos ⟨tuple, #[], #[], 0⟩ = true
  inShare : tuple.row (e.tableAt 0) % e.workers = e.worker

/-- The loops reach a tuple: it is accepted, all its rows are found by the lookups, and its
outermost row is not passed over from the start. -/
structure IsTarget (e : Episode) (tuple : Tuple) : Prop extends e.IsAccepted tuple where
  isFound : ∀ pos < e.task.query.nrTables, e.IsFound pos tuple (tuple.row (e.tableAt pos))
  lowerBound_le : e.lowerBound 0 ≤ tuple.row (e.tableAt 0)

section Targets

variable (h : e.IsWellFormed p) {target : Tuple}

include h

/-- The rows of a target are candidates once the outer positions stand at its rows. -/
theorem IsTarget.isCandidate (ht : e.IsTarget target) (hpos : pos < e.task.query.nrTables)
    {tuple : Tuple} (hagree : e.order.Agree pos tuple target) :
    e.IsCandidate pos tuple (target.row (e.tableAt pos)) := by
  refine ⟨(isFound_congr h.enumerates hpos hagree _).2 (ht.isFound pos hpos),
    fun hzero => hzero ▸ ht.inShare, fun hlt => ?_⟩
  have haccepts := ht.accepts pos hpos
  rw [Episode.accepts, Bool.and_eq_true, Bool.and_eq_true, decide_eq_true hlt, Bool.true_and,
    Bool.not_eq_true'] at haccepts
  exact haccepts.1.1

theorem IsTarget.lowerBound_le_row (ht : e.IsTarget target) (hpos : pos < e.task.query.nrTables) :
    e.lowerBound pos ≤ target.row (e.tableAt pos) := by
  rcases Nat.eq_zero_or_pos pos with rfl | hlt
  · exact ht.lowerBound_le
  · exact Episode.lowerBound_le hlt ((ht.isCandidate h hpos fun _ _ => rfl).uncovered hlt)

theorem IsTarget.accepts_of_agree (ht : e.IsTarget target) (hpos : pos < e.task.query.nrTables)
    {w : Walk} (hsize : w.tuple.size = e.task.query.nrTables)
    (hagree : e.order.Agree (pos + 1) w.tuple target) : e.accepts pos w = true := by
  have htarget : (⟨target, #[], #[], 0⟩ : Walk).tuple.size = e.task.query.nrTables := ht.size
  rw [accepts_congr h hpos hsize htarget hagree]
  exact ht.accepts pos hpos

/-- **A result of the share is a target if the snapshot covers none of its rows.** -/
theorem isTarget_of_isResult (hmasks : e.task.HasExactMasks)
    (hresult : e.task.query.IsResult target)
    (hshare : target.row (e.tableAt 0) % e.workers = e.worker)
    (huncovered : ∀ pos < e.task.query.nrTables,
      e.snapshot.covers (e.tableAt pos) (target.row (e.tableAt pos)) = false) :
    e.IsTarget target := by
  have hle := h.nrTables_le
  -- Every predicate with a number holds of a result.
  have hholds : ∀ id < e.task.query.predicates.size, e.task.query.holds id target = true := by
    intro id hid
    unfold Query.holds
    rw [Array.getElem?_eq_getElem hid]
    simpa using hresult.2 _ (Array.getElem_mem hid)
  refine { size := hresult.1.1, row_lt := fun pos hpos => ?_, accepts := fun pos hpos => ?_,
           inShare := hshare, isFound := fun pos hpos l hl => ?_, lowerBound_le := ?_ }
  · rw [h.cardinality_eq _ (h.tableAt_lt hpos)]
    exact hresult.1.2 _ (h.tableAt_lt hpos)
  · have hlt := h.tableAt_lt hpos
    unfold Episode.accepts
    rw [Bool.and_eq_true, Bool.and_eq_true, List.all_eq_true]
    refine ⟨⟨?_, ?_⟩, fun id hid => ?_⟩
    · have := huncovered pos hpos
      simp only [Walk.row, this, Bool.and_false, Bool.not_false]
    · split
      · rename_i mask hmask
        refine (hmasks _ mask hmask target hresult.1).2 fun id hid => hholds id ?_
        exact List.mem_range.1 (List.mem_filter.1 hid).1
      · rfl
    · rw [h.checks_eq hpos] at hid
      obtain ⟨predicate, hpredicate, -⟩ := Planner.tables_of_mem_checks
        h.describes h.tables_lt (show e.tableAt pos < maxTables by omega) hid
      rw [h.query_eq] at hpredicate
      exact hholds id (Array.getElem?_eq_some_iff.1 hpredicate).1
  · rw [h.lookup?_eq hpos] at hl
    obtain ⟨predicate, hid, -, htables⟩ := Planner.exists_predicate h.describes hl
    refine h.hasCompleteLookups.complete _ _ l predicate (h.contains_joined_tableAt hpos) hl hid
      target target (h.query_eq ▸ hresult.1.1) (h.query_eq ▸ hresult.1) (fun _ _ _ => rfl) ?_
    rw [h.query_eq] at hid
    exact hresult.2 predicate (Array.mem_of_getElem? hid)
  · have := huncovered 0 h.nrTables_pos
    rw [h.covers_eq, decide_eq_false_iff_not, hshare] at this
    unfold lowerBound
    rw [if_pos rfl]
    exact Nat.not_lt.1 this

/-- **An accepted tuple is a result.** -/
theorem IsAccepted.isResult (hmasks : e.task.HasExactMasks) (ht : e.IsAccepted target) :
    e.task.query.IsResult target := by
  have htuple : e.task.query.HasTuple target := by
    refine ⟨ht.size, fun table htable => ?_⟩
    obtain ⟨pos, hpos, rfl⟩ := h.isPermutation.exists_tableAt htable
    have := ht.row_lt pos hpos
    rwa [h.cardinality_eq _ (h.tableAt_lt hpos)] at this
  refine ⟨htuple, fun predicate hp => ?_⟩
  obtain ⟨id, hlt, hid⟩ := Array.getElem_of_mem hp
  have hid : e.task.query.predicates[id]? = some predicate := by
    rw [Array.getElem?_eq_getElem hlt, hid]
  have hholds : e.task.query.holds id target = true → predicate.eval target = .holds := by
    unfold Query.holds
    rw [hid]
    intro heq
    exact by simpa using heq
  -- The predicate is checked at the last of its tables, or it has been decided before the join.
  obtain ⟨pos, hpos, ⟨hmem, -⟩, hchecked⟩ := Planner.exists_mem_checks h.describes h.tables_lt
    h.isPermutation h.nrTables_le (h.query_eq ▸ hid) (h.tables_ne_nil predicate hp)
    fun t ht => ((h.explains predicate hp).tables_lt t ht).1
  have haccepts := ht.accepts pos hpos
  unfold Episode.accepts at haccepts
  rw [Bool.and_eq_true, Bool.and_eq_true, List.all_eq_true] at haccepts
  rcases hchecked with hchecks | ⟨hunary, hmasked⟩
  · exact hholds (haccepts.2 id (h.checks_eq hpos ▸ hchecks))
  · -- The filter of the table has decided the predicate.
    rw [h.masked_eq, Task.masked, TableSet.contains_ofList, decide_eq_true_eq, List.mem_filter,
      Option.isSome_iff_exists] at hmasked
    obtain ⟨-, -, mask, hmask⟩ := hmasked
    have hrow := haccepts.1.2
    rw [show e.task.mask? (e.tableAt pos) = some mask from hmask] at hrow
    refine hholds ((hmasks _ mask hmask target htuple).1 hrow id ?_)
    have htables : predicate.tables = [e.tableAt pos] := by
      unfold Predicate.isUnary at hunary
      rw [beq_iff_eq, List.length_eq_one_iff] at hunary
      obtain ⟨t, ht⟩ := hunary
      rw [ht, List.mem_singleton] at hmem
      rw [ht, ← hmem]
      rfl
    unfold Query.unaryPredicates
    rw [List.mem_filter, List.mem_range, hid]
    exact ⟨(Array.getElem?_eq_some_iff.1 hid).1, by simp [htables, tableAt]⟩

end Targets

end Episode

end AdaptiveJoin
