import AdaptiveJoin.Proofs.Progress.Memory
import AdaptiveJoin.Proofs.Progress.Offsets
import AdaptiveJoin.Query.NestedLoop

/-!
# What has been found

`found` is the set of the results that some workers have found.  Offsets, snapshots and checkpoints
are *settled* if all results that they say are done have been found:

* an offset, if the results with a row of the share below it have been found;
* a checkpoint of an order, if the results of the worker's share before it have been found.

Whatever is settled stays so when more results are found.  A memory whose checkpoints are settled
offers settled checkpoints only (`Memory.IsSettled.continueFrom`), and stays settled when a settled
checkpoint is recorded (`Memory.IsSettled.record`).
-/

namespace AdaptiveJoin

/-- A result whose row of a table belongs to a worker's share. -/
def Query.IsShareResult (q : Query) (workers worker table : Nat) (tuple : Tuple) : Prop :=
  q.IsResult tuple ∧ tuple.row table % workers = worker

section Definitions

variable (q : Query) (found : Tuple → Prop)

/-- The results below the offsets have been found. -/
def Progress.IsSettled (p : Progress) : Prop :=
  ∀ tuple, q.IsResult tuple → ∀ table < q.nrTables,
    tuple.row table < p.offset table (tuple.row table % p.workers) → found tuple

/-- The results that a snapshot covers have been found. -/
def Snapshot.IsSettled (s : Snapshot) : Prop :=
  ∀ tuple, q.IsResult tuple → ∀ table < q.nrTables, s.covers table (tuple.row table) = true →
    found tuple

/-- The results of a worker's share before a checkpoint have been found. -/
structure Checkpoint.IsSettled (workers worker : Nat) (o : JoinOrder) (c : Checkpoint) : Prop where
  size : c.tuple.size = q.nrTables
  row_le : ∀ table < q.nrTables, c.tuple.row table ≤ q.cardinality table
  found : ∀ tuple, q.IsShareResult workers worker o.leftmost tuple →
    (c.finished = true ∨ o.rowsOf tuple < o.rowsOf c.tuple) → found tuple

/-- The results of a worker's share before some rows of the first tables have been found. -/
structure IsSettledPath (workers worker : Nat) (path rows : List Nat) : Prop where
  row_le : List.Forall₂ (fun row table => row ≤ q.cardinality table) rows path
  found : ∀ tuple, q.IsShareResult workers worker (path.headD 0) tuple →
    path.map tuple.row < rows → found tuple

/-- All checkpoints that a worker remembers are settled. -/
structure Memory.IsSettled (workers : Nat) (m : Memory) : Prop where
  states : ∀ (o : JoinOrder) (c : Checkpoint), m.states[o]? = some c →
    c.IsSettled q found workers m.worker o
  paths : ∀ path rows, m.paths[path]? = some rows → IsSettledPath q found workers m.worker path rows

end Definitions

variable {q : Query} {found found' : Tuple → Prop} {workers worker : Nat}

/-! ### More results -/

section Mono

variable (hsub : ∀ tuple, found tuple → found' tuple)

include hsub

theorem Progress.IsSettled.mono {p : Progress} (h : p.IsSettled q found) : p.IsSettled q found' :=
  fun tuple hr table ht hlt => hsub tuple (h tuple hr table ht hlt)

theorem Snapshot.IsSettled.mono {s : Snapshot} (h : s.IsSettled q found) : s.IsSettled q found' :=
  fun tuple hr table ht hc => hsub tuple (h tuple hr table ht hc)

theorem Checkpoint.IsSettled.mono {o : JoinOrder} {c : Checkpoint}
    (h : c.IsSettled q found workers worker o) : c.IsSettled q found' workers worker o :=
  ⟨h.size, h.row_le, fun tuple hr hlt => hsub tuple (h.found tuple hr hlt)⟩

theorem IsSettledPath.mono {path rows : List Nat}
    (h : IsSettledPath q found workers worker path rows) :
    IsSettledPath q found' workers worker path rows :=
  ⟨h.row_le, fun tuple hr hlt => hsub tuple (h.found tuple hr hlt)⟩

theorem Memory.IsSettled.mono {m : Memory} (h : m.IsSettled q found workers) :
    m.IsSettled q found' workers :=
  ⟨fun o c hc => (h.states o c hc).mono hsub, fun path rows hr => (h.paths path rows hr).mono hsub⟩

end Mono

/-! ### Progress and snapshots -/

/-- A progress of the shares of a query. -/
structure Progress.IsFor (q : Query) (workers : Nat) (p : Progress) : Prop
    extends p.IsConsistent where
  workers_eq : p.workers = workers
  nrTables_eq : p.nrTables = q.nrTables
  cardinality_eq : ∀ table, p.cardinality table = q.cardinality table

/-- Nothing is done at the start. -/
theorem Progress.isSettled_start (cardinalities : Array Nat)
    (hcard : ∀ table, (start cardinalities workers).cardinality table = q.cardinality table) :
    (start cardinalities workers).IsSettled q found := by
  intro tuple hr table ht hlt
  have hpos := (isConsistent_start cardinalities workers).workers_pos
  rw [offset_start _ _ _ (Nat.mod_lt _ hpos), initialOffset, hcard] at hlt
  split at hlt
  · -- A share without rows has no results either.
    rename_i hle
    have hrow := hr.1.2 table ht
    have hmod := Nat.mod_le (tuple.row table) (start cardinalities workers).workers
    omega
  · exact absurd hlt (Nat.not_lt_zero _)

/-- Publishing an offset below which all results have been found. -/
theorem Progress.IsSettled.publish {p : Progress} (hp : p.IsFor q workers)
    (h : p.IsSettled q found) {table share offset : Nat} (ht : table < q.nrTables)
    (hs : share < workers)
    (hfound : ∀ tuple, q.IsShareResult workers share table tuple → tuple.row table < offset →
      found tuple) : (p.publish table share offset).2.IsSettled q found := by
  intro tuple hr table' ht' hlt
  have ht := hp.nrTables_eq ▸ ht
  have hs := hp.workers_eq ▸ hs
  rw [publish_workers, hp.offset_publish ht hs offset table' (Nat.mod_lt _ hp.workers_pos)] at hlt
  split at hlt
  · rename_i heq
    obtain ⟨rfl, hshare⟩ := heq
    -- Below the old offset nothing is new; between the two lie the results found since.
    by_cases hold : tuple.row table' < p.offset table' share
    · exact h tuple hr table' ht' (hshare ▸ hold)
    · exact hfound tuple ⟨hr, hp.workers_eq ▸ hshare⟩ (by omega)
  · exact h tuple hr table' ht' hlt

theorem Progress.IsFor.publish {p : Progress} (hp : p.IsFor q workers) {table share : Nat}
    (ht : table < q.nrTables) (hs : share < workers) (offset : Nat) :
    (p.publish table share offset).2.IsFor q workers where
  toIsConsistent := hp.toIsConsistent.publish (hp.nrTables_eq ▸ ht) (hp.workers_eq ▸ hs) offset
  workers_eq := (publish_workers _ _ _ _).trans hp.workers_eq
  nrTables_eq := (publish_nrTables _ _ _ _).trans hp.nrTables_eq
  cardinality_eq := fun t => (publish_cardinality _ _ _ _ t).trans (hp.cardinality_eq t)

/-- **A snapshot of settled offsets is settled**, even if the offsets are of different moments. -/
theorem Snapshot.isSettled_ofOffsets {offsets : Array Nat} (hpos : 0 < workers)
    (h : ∀ table < q.nrTables, ∀ share < workers, ∃ p : Progress, p.workers = workers ∧
      p.IsSettled q found ∧ offsets[table * workers + share]?.getD 0 ≤ p.offset table share)
    (nrTables : Nat) : (ofOffsets workers nrTables offsets).IsSettled q found := by
  intro tuple hr table ht hcovers
  rw [covers_ofOffsets hpos, decide_eq_true_eq] at hcovers
  obtain ⟨p, hworkers, hp, hle⟩ := h table ht _ (Nat.mod_lt (tuple.row table) hpos)
  apply hp tuple hr table ht
  rw [hworkers]
  exact Nat.lt_of_lt_of_le hcovers hle

/-! ### Checkpoints -/

/-- The start of an order is settled. -/
theorem Checkpoint.isSettled_start (o : JoinOrder) :
    (start q.nrTables).IsSettled q found workers worker o := by
  refine ⟨by simp [start], fun table ht => ?_, fun tuple hr hlt => ?_⟩
  · simp [start, Tuple.row, ht]
  · rcases hlt with hfinished | hlt
    · exact absurd hfinished (by simp [start])
    · obtain ⟨k, -, -, hlt⟩ := JoinOrder.rowsOf_lt_iff.1 hlt
      have hzero : Tuple.row (start q.nrTables).tuple (o.tableAt k) = 0 := by
        by_cases ht : o.tableAt k < q.nrTables <;> simp [start, Tuple.row, ht]
      omega

section Paths

variable {progress : Progress} {o : JoinOrder} {n : Nat}

/-- The first tables of an order begin with the outermost one. -/
theorem exists_take_eq_cons (hsize : 0 < o.size) (hpos : 0 < n) :
    ∃ rest, o.toList.take n = o.leftmost :: rest := by
  have hlen : 0 < o.toList.length := by simpa [JoinOrder.toList, JoinOrder.size] using hsize
  have hhead : o.toList[0] = o.leftmost := (JoinOrder.tableAt_eq_getElem hsize).symm
  obtain ⟨n, rfl⟩ := Nat.exists_eq_succ_of_ne_zero (Nat.pos_iff_ne_zero.1 hpos)
  obtain ⟨t, ts, hlist⟩ := List.exists_cons_of_length_pos hlen
  refine ⟨ts.take n, ?_⟩
  simp only [hlist, List.getElem_cons_zero] at hhead
  rw [hlist, List.take_succ_cons, hhead]

/-- **The checkpoint of a settled initial part is settled.** -/
theorem IsSettledPath.checkpointAt (hp : progress.IsFor q workers) (ho : o.IsPermutation q.nrTables)
    (hn : 0 < q.nrTables) (hpos : 0 < n) {rows : List Nat}
    (h : IsSettledPath q found workers worker (o.toList.take n) rows) :
    (Memory.checkpointAt progress (o.toList.take n) rows).IsSettled q found workers worker o := by
  have hnodup : (o.toList.take n).Nodup := ho.nodup.sublist (List.take_sublist _ _)
  have hlt : ∀ t ∈ o.toList.take n, t < progress.nrTables := fun t ht =>
    hp.nrTables_eq ▸ ho.mem_iff.1 (List.mem_of_mem_take ht)
  have hmap : _ = rows := Memory.map_row_checkpointAt hnodup hlt h.row_le.length_eq
  obtain ⟨rest, hrest⟩ := exists_take_eq_cons (ho.size_eq ▸ hn) hpos
  refine ⟨Memory.size_checkpointAt.trans hp.nrTables_eq, fun table ht => ?_, fun tuple hr hor => ?_⟩
  · by_cases hmem : table ∈ o.toList.take n
    · have hle := h.row_le
      rw [← hmap, List.forall₂_map_left_iff, List.forall₂_same] at hle
      exact hle table hmem
    · rw [Memory.row_checkpointAt_of_not_mem hmem]
      exact Nat.zero_le _
  · apply h.found tuple (by rwa [hrest])
    rw [← hmap, List.map_take, List.map_take]
    apply JoinOrder.take_rowsOf_lt_iff.2
    rcases hor with hfinished | hlt
    · -- The outermost table has no row left.
      have hhead := congrArg (List.headD · 0) hmap
      simp only [hrest, List.map_cons, List.headD_cons] at hhead
      rw [Memory.finished_checkpointAt, decide_eq_true_eq, hrest, List.headD_cons,
        hp.cardinality_eq, ← hhead, ← hrest] at hfinished
      have hrow := hr.1.1.2 o.leftmost (ho.tableAt_lt hn)
      exact ⟨0, hpos, ho.size_eq ▸ hn, o.agree_zero _ _, by
        show tuple.row o.leftmost < Tuple.row _ o.leftmost
        omega⟩
    · obtain ⟨k, hk, hagree, hrow⟩ := JoinOrder.rowsOf_lt_iff.1 hlt
      refine ⟨k, ?_, hk, hagree, hrow⟩
      -- Behind the initial part the checkpoint stands at first rows.
      by_contra hge
      rw [Memory.row_checkpointAt_of_not_mem] at hrow
      · exact Nat.not_lt_zero _ hrow
      · rw [List.mem_take_iff_getElem]
        rintro ⟨i, hi, heq⟩
        have hik : i < o.size := by
          have : o.toList.length = o.size := by simp [JoinOrder.toList, JoinOrder.size]
          omega
        rw [← JoinOrder.tableAt_eq_getElem (by omega)] at heq
        have := ho.tableAt_inj (ho.size_eq ▸ hik) (ho.size_eq ▸ hk) heq
        omega

/-- The first rows of a settled checkpoint are settled. -/
theorem Checkpoint.IsSettled.path (ho : o.IsPermutation q.nrTables) (hn : 0 < q.nrTables)
    (hpos : 0 < n) {c : Checkpoint} (h : c.IsSettled q found workers worker o) :
    IsSettledPath q found workers worker (o.toList.take n) ((c.rows o).take n) := by
  obtain ⟨rest, hrest⟩ := exists_take_eq_cons (ho.size_eq ▸ hn) hpos
  refine ⟨?_, fun tuple hr hlt => ?_⟩
  · unfold Checkpoint.rows
    rw [← List.map_take, List.forall₂_map_left_iff, List.forall₂_same]
    intro t ht
    exact h.row_le t (ho.mem_iff.1 (List.mem_of_mem_take ht))
  · rw [List.map_take] at hlt
    obtain ⟨k, -, hk, hagree, hrow⟩ := JoinOrder.take_rowsOf_lt_iff.1 hlt
    refine h.found tuple (by rwa [hrest] at hr) (Or.inr ?_)
    exact JoinOrder.rowsOf_lt_iff.2 ⟨k, hk, hagree, hrow⟩

end Paths

/-! ### Memories -/

theorem Memory.isSettled_start (worker : Nat) : (start worker).IsSettled q found workers :=
  ⟨fun o c h => absurd h (by simp [start]), fun path rows h => absurd h (by simp [start])⟩

/-- **A settled memory offers settled checkpoints.** -/
theorem Memory.IsSettled.continueFrom {m : Memory} {progress : Progress} {o : JoinOrder}
    (h : m.IsSettled q found workers) (hp : progress.IsFor q workers)
    (ho : o.IsPermutation q.nrTables) (hn : 0 < q.nrTables) :
    (m.continueFrom progress o).IsSettled q found workers m.worker o := by
  rcases m.continueFrom_mem progress o with heq | ⟨n, hpos, hlt, heq⟩
  · rw [heq, ownCheckpoint]
    cases hstate : m.states[o]? with
    | none => exact hp.nrTables_eq ▸ Checkpoint.isSettled_start o
    | some c => exact h.states o c hstate
  · unfold checkpointOn? at heq
    rw [Option.map_eq_some_iff] at heq
    obtain ⟨rows, hrows, heq⟩ := heq
    rw [← heq]
    exact (h.paths _ rows hrows).checkpointAt hp ho hn hpos

/-- **A settled memory stays settled when a settled checkpoint is recorded.** -/
theorem Memory.IsSettled.record {m : Memory} {o : JoinOrder} {c : Checkpoint}
    (h : m.IsSettled q found workers) (ho : o.IsPermutation q.nrTables) (hn : 0 < q.nrTables)
    (hc : c.IsSettled q found workers m.worker o) :
    (m.record o c).IsSettled q found workers := by
  constructor
  · intro o' c' hc'
    rw [record_worker]
    rcases record_states hc' with hc' | ⟨rfl, rfl⟩
    · exact h.states o' c' hc'
    · exact hc
  · intro path rows hrows
    rw [record_worker]
    rcases record_paths hrows with hrows | ⟨n, hpos, -, rfl, rfl⟩
    · exact h.paths path rows hrows
    · exact hc.path ho hn hpos

end AdaptiveJoin
