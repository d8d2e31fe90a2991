import AdaptiveJoin.Proofs.Progress.Settled

/-!
# What is over is published

When a worker comes to the end of the outermost table, it records a checkpoint behind the last row
and publishes it.  `Memory.IsPublished` says that the two never fall apart: whenever a memory knows
an order or an initial part of orders to be over, the share of its outermost table is finished.  So
an order of which the share is not finished can always go on (`Memory.IsPublished.continueFrom`).
-/

namespace AdaptiveJoin

/-- Finished shares stay finished while the tables stay the same. -/
structure Progress.IsBefore (p p' : Progress) (workers : Nat) : Prop where
  cardinality_eq : ∀ table, p'.cardinality table = p.cardinality table
  isShareFinished : ∀ table, ∀ share < workers, p.isShareFinished table share = true →
    p'.isShareFinished table share = true

/-- The shares whose end a memory knows are finished. -/
structure Memory.IsPublished (m : Memory) (p : Progress) : Prop where
  states : ∀ (o : JoinOrder) (c : Checkpoint), m.states[o]? = some c → c.finished = true →
    p.isShareFinished o.leftmost m.worker = true
  paths : ∀ path rows : List Nat, m.paths[path]? = some rows →
    p.cardinality (path.headD 0) ≤ rows.headD 0 →
      p.isShareFinished (path.headD 0) m.worker = true

/-! ### Progress goes on -/

namespace Progress

variable {q : Query} {workers : Nat} {p p' : Progress}

theorem IsBefore.refl (p : Progress) (workers : Nat) : p.IsBefore p workers :=
  ⟨fun _ => rfl, fun _ _ _ h => h⟩

theorem IsBefore.trans {p'' : Progress} (h : p.IsBefore p' workers) (h' : p'.IsBefore p'' workers) :
    p.IsBefore p'' workers where
  cardinality_eq table := (h'.cardinality_eq table).trans (h.cardinality_eq table)
  isShareFinished table share hs hfinished :=
    h'.isShareFinished table share hs (h.isShareFinished table share hs hfinished)

theorem IsFor.isBefore_publish (hp : p.IsFor q workers) {table share : Nat}
    (ht : table < q.nrTables) (hs : share < workers) (offset : Nat) :
    p.IsBefore (p.publish table share offset).2 workers where
  cardinality_eq := publish_cardinality p table share offset
  isShareFinished table' share' hs' hfinished := by
    rw [hp.isShareFinished_publish (hp.nrTables_eq ▸ ht) (hp.workers_eq ▸ hs) offset table'
      (hp.workers_eq ▸ hs'), hfinished, Bool.true_or]

/-- Publishing the end of a table finishes the share. -/
theorem IsFor.isShareFinished_publish_self (hp : p.IsFor q workers) {table share : Nat}
    (ht : table < q.nrTables) (hs : share < workers) {offset : Nat}
    (hend : p.cardinality table ≤ offset) :
    (p.publish table share offset).2.isShareFinished table share = true := by
  rw [hp.isShareFinished_publish (hp.nrTables_eq ▸ ht) (hp.workers_eq ▸ hs) offset table
    (hp.workers_eq ▸ hs), decide_eq_true ⟨rfl, rfl, hend⟩, Bool.or_true]

/-- The result is complete once every share of a table is finished. -/
theorem IsFor.isFinished_of_shares (hp : p.IsFor q workers) {table : Nat} (ht : table < q.nrTables)
    (hall : ∀ share < workers, p.isShareFinished table share = true) : p.isFinished = true := by
  unfold isFinished
  rw [List.any_eq_true]
  refine ⟨table, List.mem_range.2 (hp.nrTables_eq ▸ ht), ?_⟩
  rw [isTableFinished_iff hp.workers_le]
  exact fun share hs => hall share (hp.workers_eq ▸ hs)

/-- **A complete result stays complete.** -/
theorem IsBefore.isFinished (h : p.IsBefore p' workers) (hp : p.IsFor q workers)
    (hp' : p'.IsFor q workers) (hfinished : p.isFinished = true) : p'.isFinished = true := by
  unfold Progress.isFinished at hfinished
  obtain ⟨table, ht, hall⟩ := List.any_eq_true.1 hfinished
  rw [isTableFinished_iff hp.workers_le, hp.workers_eq] at hall
  exact hp'.isFinished_of_shares (hp.nrTables_eq ▸ List.mem_range.1 ht) fun share hs =>
    h.isShareFinished table share hs (hall share hs)

end Progress

/-! ### Memories -/

namespace Memory

variable {q : Query} {workers : Nat} {m : Memory} {p p' : Progress} {o : JoinOrder} {c : Checkpoint}

theorem isPublished_start (worker : Nat) (p : Progress) : (start worker).IsPublished p :=
  ⟨fun o c h => absurd h (by simp [start]), fun path rows h => absurd h (by simp [start])⟩

theorem IsPublished.mono (h : m.IsPublished p) (hbefore : p.IsBefore p' workers)
    (hworker : m.worker < workers) : m.IsPublished p' := by
  refine ⟨fun o c hc hfinished => ?_, fun path rows hrows hend => ?_⟩
  · exact hbefore.isShareFinished _ _ hworker (h.states o c hc hfinished)
  · rw [hbefore.cardinality_eq] at hend
    exact hbefore.isShareFinished _ _ hworker (h.paths path rows hrows hend)

/-- **An order is over only if the share of its outermost table is finished.** -/
theorem IsPublished.continueFrom (h : m.IsPublished p) (hsize : 0 < o.size)
    (hfinished : (m.continueFrom p o).finished = true) :
    p.isShareFinished o.leftmost m.worker = true := by
  rcases m.continueFrom_mem p o with heq | ⟨n, hpos, -, heq⟩
  · rw [heq, ownCheckpoint] at hfinished
    cases hstate : m.states[o]? with
    | none =>
      rw [hstate] at hfinished
      exact absurd hfinished (by simp [Checkpoint.start])
    | some c =>
      rw [hstate] at hfinished
      exact h.states o c hstate hfinished
  · -- A checkpoint read off a path is finished only if the first row is the end of the table.
    unfold checkpointOn? at heq
    obtain ⟨rows, hrows, heq⟩ := Option.map_eq_some_iff.1 heq
    obtain ⟨rest, hrest⟩ := exists_take_eq_cons hsize hpos
    rw [← heq, finished_checkpointAt, decide_eq_true_eq] at hfinished
    have hend := h.paths _ rows hrows hfinished
    rwa [hrest] at hend

/-- **What is recorded is published.** -/
theorem IsPublished.update (h : m.IsPublished p) (hp : p.IsFor q workers)
    (ho : o.IsPermutation q.nrTables) (hn : 0 < q.nrTables) (hworker : m.worker < workers)
    (c : Checkpoint) : (m.update p o c).1.IsPublished (m.update p o c).2 := by
  have ht : o.leftmost < q.nrTables := ho.tableAt_lt hn
  have hsize : 0 < o.size := ho.size_eq.symm ▸ hn
  show (m.record o c).IsPublished (p.publish o.leftmost m.worker
    (if c.finished then p.cardinality o.leftmost else c.tuple.row o.leftmost)).2
  generalize hoffset :
    (if c.finished then p.cardinality o.leftmost else c.tuple.row o.leftmost) = offset
  have hmono := h.mono (hp.isBefore_publish ht hworker offset) hworker
  -- A checkpoint with no row of the share left finishes the share.
  have hover : c.finished = true ∨ p.cardinality o.leftmost ≤ c.tuple.row o.leftmost →
      (p.publish o.leftmost m.worker offset).2.isShareFinished o.leftmost m.worker = true := by
    intro hover
    apply hp.isShareFinished_publish_self ht hworker
    split at hoffset
    · exact hoffset.le
    · rename_i hunfinished
      exact hoffset ▸ hover.resolve_left hunfinished
  refine ⟨fun o' c' hc' hfinished => ?_, fun path rows hrows hend => ?_⟩
  · rw [record_worker]
    rcases record_states hc' with hc' | ⟨rfl, rfl⟩
    · exact hmono.states o' c' hc' hfinished
    · exact hover (Or.inl hfinished)
  · rw [record_worker]
    rcases record_paths hrows with hrows | ⟨n, hpos, -, rfl, rfl⟩
    · exact hmono.paths path rows hrows hend
    · -- The first row of the checkpoint is that of the outermost table.
      obtain ⟨rest, hrest⟩ := exists_take_eq_cons hsize hpos
      rw [Checkpoint.rows, ← List.map_take, hrest, List.map_cons, List.headD_cons,
        List.headD_cons, Progress.publish_cardinality] at hend
      rw [hrest]
      exact hover (Or.inr hend)

end Memory

end AdaptiveJoin
