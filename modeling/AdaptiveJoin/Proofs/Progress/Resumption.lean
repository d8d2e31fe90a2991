import Mathlib.Data.List.Induction
import Mathlib.Data.Set.Finite.Lemmas
import Mathlib.Order.Bounds.Basic
import AdaptiveJoin.Proofs.Progress.Memory
import AdaptiveJoin.Proofs.Progress.Offsets

/-!
# Going on never goes back

A worker runs orders in any sequence and remembers where each run stopped.  What it then knows of an
order is told by the runs alone, without the tables in which it is kept:

* `Memory.reachedOn` are the rows that the runs have reached on an initial part of orders, and
  `Checkpoint.StandsAt` is the checkpoint of an order that has come to such rows;
* `Checkpoint.IsFurthest` is a checkpoint that none of an order's own runs and none of its initial
  parts is ahead of, and that is one of them or the start.

`Memory.Recalls` relates a memory to the runs.  Recording one more run keeps it
(`Memory.Recalls.record`), so that it holds after all runs (`Memory.recalls_run`) and an order goes
on from a furthest checkpoint (`Memory.Recalls.isFurthest_continueFrom`).  More runs only lead
further (`Checkpoint.IsFurthest.not_isAheadOf`), and so neither the order nor the offsets that the
runs publish ever go back (`Memory.resumption_advances`).
-/

namespace AdaptiveJoin

/-- The orders that a worker has run, each with the checkpoint where it stopped, the first run
first. -/
abbrev History := List (JoinOrder × Checkpoint)

/-! ### Initial parts of orders -/

namespace JoinOrder

variable {o : JoinOrder} {path : List Nat}

/-- In a permutation, the tables behind an initial part are not among it. -/
theorem IsPart.tableAt_not_mem (h : o.IsPart path) {n : Nat} (ho : o.IsPermutation n) {k : Nat}
    (hk : path.length ≤ k) (hlt : k < o.size) : o.tableAt k ∉ path := by
  intro hmem
  obtain ⟨i, hi, heq⟩ := List.getElem_of_mem hmem
  have hisize : i < o.toList.length := hi.trans h.lt
  have htable : o.tableAt i = o.tableAt k := by
    rw [tableAt_eq_getElem hisize, ← h.begins.getElem hi, heq]
  have hik : i = k := ho.tableAt_inj (ho.size_eq ▸ hi.trans h.lt) (ho.size_eq ▸ hlt) htable
  omega

end JoinOrder

/-! ### Where an order stands -/

theorem headD_le_of_le {as bs : List Nat} (hlen : as.length = bs.length) (h : as ≤ bs) :
    as.headD 0 ≤ bs.headD 0 := by
  cases as with
  | nil => exact Nat.zero_le _
  | cons a as =>
    cases bs with
    | nil => exact absurd hlen (by simp)
    | cons b bs =>
      rw [List.headD_cons, List.headD_cons]
      by_contra hlt
      exact h.not_gt (List.cons_lt_cons_iff.2 (Or.inl (Nat.lt_of_not_le hlt)))

namespace Checkpoint

/-- The checkpoint of an order whose first tables have reached some rows while all others are at
their first row.  It is the end if the outermost table has no such row. -/
structure StandsAt (p : Progress) (path rows : List Nat) (c : Checkpoint) : Prop where
  size_tuple : c.tuple.size = p.nrTables
  rows_eq : path.map c.tuple.row = rows
  row_eq_zero : ∀ table, table ∉ path → c.tuple.row table = 0
  finished_iff : c.finished = true ↔ p.cardinality (path.headD 0) ≤ rows.headD 0
  joinIndex_eq : c.joinIndex = if c.finished then -1 else (path.length : Int) - 1

variable {p : Progress} {o : JoinOrder} {path rows rows' : List Nat} {c c' : Checkpoint}

/-- The initial part of a permutation offers the checkpoint that stands at the rows it has
reached. -/
theorem standsAt_checkpointAt (ho : o.IsPermutation p.nrTables) (hpath : o.IsPart path)
    (hlen : rows.length = path.length) :
    (Memory.checkpointAt p path rows).StandsAt p path rows where
  size_tuple := Memory.size_checkpointAt
  rows_eq := by
    apply Memory.map_row_checkpointAt _ _ hlen
    · -- The tables of the path are distinct, so no row is overwritten.
      exact ho.nodup.sublist hpath.begins.sublist
    · intro table htable
      exact ho.mem_iff.1 (hpath.begins.subset htable)
  row_eq_zero table htable := Memory.row_checkpointAt_of_not_mem htable
  finished_iff := by
    rw [Memory.finished_checkpointAt, decide_eq_true_eq]
  joinIndex_eq := by
    rw [Memory.finished_checkpointAt]
    unfold Memory.checkpointAt
    simp only [decide_eq_true_eq]

/-- **An order that stands at greater rows of an initial part is not behind.** -/
theorem StandsAt.not_isAheadOf (h : c.StandsAt p path rows) (h' : c'.StandsAt p path rows')
    (ho : o.IsPermutation p.nrTables) (hpath : o.IsPart path) (hle : rows ≤ rows') :
    c.isAheadOf c' o = false := by
  have hlen : rows.length = rows'.length := by
    rw [← h.rows_eq, ← h'.rows_eq, List.length_map, List.length_map]
  have hfinished : c.finished = true → c'.finished = true := by
    intro hfinished
    rw [h'.finished_iff]
    exact (h.finished_iff.1 hfinished).trans (headD_le_of_le hlen hle)
  rw [Bool.eq_false_iff, ne_eq, isAheadOf_iff]
  rintro (⟨hc, hc'⟩ | ⟨-, hlt⟩)
  · rw [hfinished hc] at hc'
    exact absurd hc' (by decide)
  · -- The tuples cannot differ behind the initial part, where both have their first rows.
    obtain ⟨k, hk, hagree, hrow⟩ := JoinOrder.rowsOf_lt_iff.1 hlt
    by_cases hkpath : k < path.length
    · have htake : (o.rowsOf c'.tuple).take path.length < (o.rowsOf c.tuple).take path.length :=
        JoinOrder.take_rowsOf_lt_iff.2 ⟨k, hkpath, hk, hagree, hrow⟩
      unfold JoinOrder.rowsOf at htake
      rw [← List.map_take, ← List.map_take, hpath.take_length, h.rows_eq, h'.rows_eq] at htake
      exact hle.not_gt htake
    · have hmem := hpath.tableAt_not_mem ho (Nat.le_of_not_lt hkpath) hk
      rw [h.row_eq_zero _ hmem, h'.row_eq_zero _ hmem] at hrow
      exact lt_irrefl 0 hrow

/-- The start is ahead of nothing. -/
theorem not_isAheadOf_of_start (n : Nat) (c : Checkpoint) (o : JoinOrder) :
    (start n).isAheadOf c o = false := by
  rw [Bool.eq_false_iff, ne_eq, isAheadOf_iff]
  rintro (⟨hfinished, -⟩ | ⟨-, hlt⟩)
  · exact absurd hfinished (by simp [start])
  · obtain ⟨k, -, -, hrow⟩ := JoinOrder.rowsOf_lt_iff.1 hlt
    rw [row_start] at hrow
    exact Nat.not_lt_zero _ hrow

end Checkpoint

/-! ### What runs have reached -/

namespace Memory

/-- The rows that some runs have reached on an initial part of their orders. -/
def reachedOn (us : History) (path : List Nat) : Set (List Nat) :=
  {rows | ∃ u ∈ us, u.1.IsPart path ∧ path.map u.2.tuple.row = rows}

section ReachedOn

variable {us us' : History} {o : JoinOrder} {path rows : List Nat}

theorem length_of_mem_reachedOn (h : rows ∈ reachedOn us path) : rows.length = path.length := by
  obtain ⟨u, -, -, rfl⟩ := h
  exact List.length_map _

theorem reachedOn_mono (h : us ⊆ us') (path : List Nat) : reachedOn us path ⊆ reachedOn us' path :=
  fun _ ⟨u, hu, hpart, hrows⟩ => ⟨u, h hu, hpart, hrows⟩

theorem reachedOn_concat_of_isPart (h : o.IsPart path) (us : History) (c : Checkpoint) :
    reachedOn (us ++ [(o, c)]) path = insert (path.map c.tuple.row) (reachedOn us path) := by
  ext rows
  simp only [reachedOn, Set.mem_insert_iff, Set.mem_ofPred_eq, List.mem_append, List.mem_singleton]
  constructor
  · rintro ⟨u, hu | rfl, hpart, rfl⟩
    · exact Or.inr ⟨u, hu, hpart, rfl⟩
    · exact Or.inl rfl
  · rintro (rfl | ⟨u, hu, hpart, rfl⟩)
    · exact ⟨(o, c), Or.inr rfl, h, rfl⟩
    · exact ⟨u, Or.inl hu, hpart, rfl⟩

theorem reachedOn_concat_of_not_isPart (h : ¬o.IsPart path) (us : History) (c : Checkpoint) :
    reachedOn (us ++ [(o, c)]) path = reachedOn us path := by
  ext rows
  simp only [reachedOn, Set.mem_ofPred_eq, List.mem_append, List.mem_singleton]
  constructor
  · rintro ⟨u, hu | rfl, hpart, rfl⟩
    · exact ⟨u, hu, hpart, rfl⟩
    · exact absurd hpart h
  · rintro ⟨u, hu, hpart, rfl⟩
    exact ⟨u, Or.inl hu, hpart, rfl⟩

/-- Of the rows reached on an initial part some are the greatest. -/
theorem exists_isGreatest_reachedOn (h : (reachedOn us path).Nonempty) :
    ∃ rows, IsGreatest (reachedOn us path) rows := by
  have hfinite : (reachedOn us path).Finite := by
    apply (List.finite_toSet (us.map fun u => path.map u.2.tuple.row)).subset
    rintro rows ⟨u, hu, -, rfl⟩
    rw [Set.mem_ofPred_eq]
    exact List.mem_map.2 ⟨u, hu, rfl⟩
  obtain ⟨rows, hmem, hmax⟩ := Set.exists_max_image _ id hfinite h
  exact ⟨rows, hmem, hmax⟩

end ReachedOn

end Memory

/-! ### Furthest checkpoints -/

/-- The place from which an order goes on after some runs: none of its own runs has come further,
and no run whose order shares an initial part with it has come further on this part.  It is the
place of one of these runs or the start. -/
structure Checkpoint.IsFurthest (p : Progress) (us : History) (o : JoinOrder) (c : Checkpoint) :
    Prop where
  own_not_isAheadOf : ∀ c' : Checkpoint, (o, c') ∈ us → c'.isAheadOf c o = false
  part_not_isAheadOf : ∀ path rows, o.IsPart path → IsGreatest (Memory.reachedOn us path) rows →
    ∀ c' : Checkpoint, c'.StandsAt p path rows → c'.isAheadOf c o = false
  reached : c = .start p.nrTables ∨ (o, c) ∈ us ∨
    ∃ path rows, o.IsPart path ∧ IsGreatest (Memory.reachedOn us path) rows ∧
      c.StandsAt p path rows

/-- **More runs lead at least as far.** -/
theorem Checkpoint.IsFurthest.not_isAheadOf {p : Progress} {us us' : History} {o : JoinOrder}
    {c c' : Checkpoint} (h : c.IsFurthest p us o) (h' : c'.IsFurthest p us' o)
    (ho : o.IsPermutation p.nrTables) (hsub : us ⊆ us') : c.isAheadOf c' o = false := by
  rcases h.reached with rfl | hmem | ⟨path, rows, hpath, hrows, hstands⟩
  · exact not_isAheadOf_of_start p.nrTables c' o
  · exact h'.own_not_isAheadOf c (hsub hmem)
  · -- The rows reached on the initial part may have grown.
    have hmem := Memory.reachedOn_mono hsub path hrows.1
    obtain ⟨rows', hrows'⟩ := Memory.exists_isGreatest_reachedOn ⟨rows, hmem⟩
    have hstands' := standsAt_checkpointAt ho hpath (Memory.length_of_mem_reachedOn hrows'.1)
    apply not_isAheadOf_trans (hstands.not_isAheadOf hstands' ho hpath (hrows'.2 hmem))
    exact h'.part_not_isAheadOf path rows' hpath hrows' _ hstands'

namespace Memory

variable {m : Memory} {p : Progress} {us : History} {o : JoinOrder}

/-! ### Memories of runs -/

/-- The memory keeps the furthest of what some runs have reached, for every order and for every
initial part. -/
structure Recalls (m : Memory) (us : History) : Prop where
  mem_of_states : ∀ o c, m.states[o]? = some c → (o, c) ∈ us
  states_of_mem : ∀ o c, (o, c) ∈ us →
    ∃ c', m.states[o]? = some c' ∧ c.isAheadOf c' o = false
  reachedOn_eq_empty : ∀ path, m.paths[path]? = none → reachedOn us path = ∅
  isGreatest : ∀ path rows, m.paths[path]? = some rows → IsGreatest (reachedOn us path) rows

theorem recalls_start (worker : Nat) : (start worker).Recalls [] where
  mem_of_states o c h := absurd h (by simp [start])
  states_of_mem o c h := absurd h List.not_mem_nil
  reachedOn_eq_empty path _ := by simp [reachedOn]
  isGreatest path rows h := absurd h (by simp [start])

/-- **One more run is remembered along with the others.** -/
theorem Recalls.record (h : m.Recalls us) (o : JoinOrder) (c : Checkpoint) :
    (m.record o c).Recalls (us ++ [(o, c)]) where
  mem_of_states o' c' hc' := by
    rw [List.mem_append, List.mem_singleton, Prod.mk.injEq]
    exact (record_states hc').imp (h.mem_of_states o' c') id
  states_of_mem o' c' hmem := by
    rw [List.mem_append, List.mem_singleton, Prod.mk.injEq] at hmem
    by_cases ho : o' = o
    · subst ho
      obtain ⟨new, hnew, hc, hbefore⟩ := record_states_not_behind m o' c
      refine ⟨new, hnew, ?_⟩
      rcases hmem with hmem | ⟨-, rfl⟩
      · obtain ⟨old, hold, hle⟩ := h.states_of_mem o' c' hmem
        exact Checkpoint.not_isAheadOf_trans hle (hbefore old hold)
      · exact hc
    · rw [record_states_of_ne ho]
      exact h.states_of_mem o' c' (hmem.resolve_right fun heq => ho heq.1)
  reachedOn_eq_empty path hnone := by
    by_cases hpath : o.IsPart path
    · rw [getElem?_paths_record_of_isPart hpath] at hnone
      exact absurd hnone (by simp)
    · rw [getElem?_paths_record_of_not_isPart hpath] at hnone
      rw [reachedOn_concat_of_not_isPart hpath]
      exact h.reachedOn_eq_empty path hnone
  isGreatest path rows hrows := by
    by_cases hpath : o.IsPart path
    · rw [getElem?_paths_record_of_isPart hpath, Option.some.injEq] at hrows
      rw [reachedOn_concat_of_isPart hpath, ← hrows]
      -- The new rows are compared with the greatest so far.
      cases hold : m.paths[path]? with
      | none =>
        rw [h.reachedOn_eq_empty path hold, insert_empty_eq]
        exact isGreatest_singleton
      | some old =>
        rw [Option.elim_some, max_comm]
        exact (h.isGreatest path old hold).insert _
    · rw [getElem?_paths_record_of_not_isPart hpath] at hrows
      rw [reachedOn_concat_of_not_isPart hpath]
      exact h.isGreatest path rows hrows

/-- The greatest rows reached on an initial part are remembered. -/
theorem Recalls.getElem?_paths (h : m.Recalls us) {path rows : List Nat}
    (hrows : IsGreatest (reachedOn us path) rows) : m.paths[path]? = some rows := by
  cases hold : m.paths[path]? with
  | none =>
    have hmem := hrows.1
    rw [h.reachedOn_eq_empty path hold] at hmem
    exact absurd hmem (Set.notMem_empty rows)
  | some old => rw [(h.isGreatest path old hold).unique hrows]

/-- **An order goes on from the furthest of the checkpoints that its runs and its initial parts
have reached.** -/
theorem Recalls.isFurthest_continueFrom (h : m.Recalls us) (ho : o.IsPermutation p.nrTables) :
    (m.continueFrom p o).IsFurthest p us o where
  own_not_isAheadOf c' hmem := by
    obtain ⟨own, hown, hle⟩ := h.states_of_mem o c' hmem
    have hbest := (m.isAheadOf_continueFrom p o).1
    rw [ownCheckpoint, hown, Option.getD_some] at hbest
    exact Checkpoint.not_isAheadOf_trans hle hbest
  part_not_isAheadOf path rows hpath hrows c' hstands := by
    have hoffer : m.checkpointOn? p o path.length = some (checkpointAt p path rows) := by
      simp only [checkpointOn?, hpath.take_length, h.getElem?_paths hrows, Option.map_some]
    have hbest := (m.isAheadOf_continueFrom p o).2 path.length hpath.pos hpath.lt _ hoffer
    -- Whatever stands at these rows is not ahead of what the initial part offers.
    have hstands' := Checkpoint.standsAt_checkpointAt ho hpath (length_of_mem_reachedOn hrows.1)
    exact Checkpoint.not_isAheadOf_trans
      (hstands.not_isAheadOf hstands' ho hpath (le_refl rows)) hbest
  reached := by
    rcases m.continueFrom_mem p o with heq | ⟨n, hpos, hlt, hoffer⟩
    · rw [heq, ownCheckpoint]
      cases hown : m.states[o]? with
      | none => exact Or.inl rfl
      | some own => exact Or.inr (Or.inl (h.mem_of_states o own hown))
    · unfold checkpointOn? at hoffer
      obtain ⟨rows, hrows, heq⟩ := Option.map_eq_some_iff.1 hoffer
      have hgreatest := h.isGreatest _ rows hrows
      have hpath := JoinOrder.isPart_take hpos hlt
      refine Or.inr (Or.inr ⟨_, rows, hpath, hgreatest, ?_⟩)
      rw [← heq]
      exact Checkpoint.standsAt_checkpointAt ho hpath (length_of_mem_reachedOn hgreatest.1)

/-! ### Runs -/

/-- A worker and the shared progress after the worker has run some orders. -/
def run (worker : Nat) (p : Progress) (us : History) : Memory × Progress :=
  us.foldl (fun s u => s.1.update s.2 u.1 u.2) (start worker, p)

/-- The checkpoint from which an order goes on after some runs. -/
def resumption (worker : Nat) (p : Progress) (us : History) (o : JoinOrder) : Checkpoint :=
  (run worker p us).1.continueFrom (run worker p us).2 o

theorem run_concat (worker : Nat) (p : Progress) (us : History) (u : JoinOrder × Checkpoint) :
    run worker p (us ++ [u]) =
      (run worker p us).1.update (run worker p us).2 u.1 u.2 :=
  List.foldl_concat _ _ _ _

theorem recalls_run (worker : Nat) (p : Progress) (us : History) :
    (run worker p us).1.Recalls us := by
  induction us using List.reverseRecOn with
  | nil => exact recalls_start worker
  | append_singleton us u ih =>
    rw [run_concat]
    exact ih.record u.1 u.2

@[simp]
theorem run_cardinalities (worker : Nat) (p : Progress) (us : History) :
    (run worker p us).2.cardinalities = p.cardinalities := by
  induction us using List.reverseRecOn with
  | nil => rfl
  | append_singleton us u ih =>
    rw [run_concat, update, Progress.publish_cardinalities, ih]

/-- Going on reads the numbers of rows of the shared progress and nothing else. -/
theorem continueFrom_congr {p' : Progress} (h : p'.cardinalities = p.cardinalities) (m : Memory)
    (o : JoinOrder) : m.continueFrom p' o = m.continueFrom p o := by
  obtain ⟨_, cardinalities, _, _⟩ := p
  obtain ⟨_, cardinalities', _, _⟩ := p'
  obtain rfl : cardinalities' = cardinalities := h
  rfl

theorem isFurthest_resumption (ho : o.IsPermutation p.nrTables) (worker : Nat) (us : History) :
    (resumption worker p us o).IsFurthest p us o := by
  rw [resumption, continueFrom_congr (run_cardinalities worker p us)]
  exact (recalls_run worker p us).isFurthest_continueFrom ho

theorem offset_le_run (worker : Nat) (p : Progress) (us vs : History) (table share : Nat) :
    (run worker p us).2.offset table share ≤ (run worker p (us ++ vs)).2.offset table share := by
  -- The later runs publish one offset each.
  induction vs using List.reverseRecOn with
  | nil => rw [List.append_nil]
  | append_singleton vs v ih =>
    rw [← List.append_assoc, run_concat]
    apply ih.trans
    exact Progress.offset_le_publish _ _ _ _ _ _

/-- **Going on never goes back.**  After any runs an order goes on from the furthest checkpoint that
its own runs and its initial parts have reached; more runs never take it back, and they never lower
an offset that the workers share. -/
theorem resumption_advances (ho : o.IsPermutation p.nrTables) (worker : Nat) (us vs : History) :
    (resumption worker p us o).IsFurthest p us o ∧
      (resumption worker p us o).isAheadOf (resumption worker p (us ++ vs) o) o = false ∧
      ∀ table share, (run worker p us).2.offset table share ≤
        (run worker p (us ++ vs)).2.offset table share := by
  have hfurthest := isFurthest_resumption ho worker us
  refine ⟨hfurthest, ?_, offset_le_run worker p us vs⟩
  exact hfurthest.not_isAheadOf (isFurthest_resumption ho worker (us ++ vs)) ho
    (List.subset_append_left us vs)

/-- A run of another order with the same outermost table. -/
theorem resumption_advances_sample :
    let p := Progress.start #[5, 5, 5] 1
    let o : JoinOrder := ⟨#[0, 2, 1]⟩
    let us : History := [(⟨#[0, 1, 2]⟩, ⟨#[2, 3, 4], 2, false⟩)]
    let vs : History := [(⟨#[0, 2, 1]⟩, ⟨#[1, 4, 0], 1, false⟩)]
    o.IsPermutation p.nrTables ∧ (resumption 0 p us o).IsFurthest p us o ∧
      (resumption 0 p us o).isAheadOf (resumption 0 p (us ++ vs) o) o = false ∧
      ∀ table share, (run 0 p us).2.offset table share ≤
        (run 0 p (us ++ vs)).2.offset table share :=
  ⟨by decide, resumption_advances (by decide) 0 _ _⟩

end Memory

end AdaptiveJoin
