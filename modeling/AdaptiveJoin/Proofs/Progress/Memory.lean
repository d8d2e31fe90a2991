import Mathlib.Order.Lattice
import AdaptiveJoin.Progress.Memory
import AdaptiveJoin.Proofs.RowOrder

/-!
# What a worker remembers

`Memory.continueFrom` answers one of the checkpoints that its own runs and the initial parts of the
order offer, and none of them is further ahead (`Memory.continueFrom_mem`,
`Memory.isAheadOf_continueFrom`).

Every checkpoint that is remembered has been recorded before: `Memory.record_states` and
`Memory.record_paths` say what recording a checkpoint leaves.
-/

namespace AdaptiveJoin

/-! ### The order of checkpoints -/

namespace Checkpoint

theorem rows_eq (c : Checkpoint) (o : JoinOrder) : c.rows o = o.rowsOf c.tuple := rfl

theorem row_start (n table : Nat) : (start n).tuple.row table = 0 := by
  by_cases hlt : table < n <;> simp [start, Tuple.row, hlt]

/-- A checkpoint is ahead of another one if it is the end and the other is not, or by its rows. -/
theorem isAheadOf_iff {a b : Checkpoint} {o : JoinOrder} :
    a.isAheadOf b o = true ↔
      (a.finished = true ∧ b.finished = false) ∨
        (a.finished = b.finished ∧ o.rowsOf b.tuple < o.rowsOf a.tuple) := by
  unfold isAheadOf
  rw [rows_eq, rows_eq]
  cases a.finished <;> cases b.finished <;> simp [compareLex_eq_gt_iff]

theorem isAheadOf_self (a : Checkpoint) (o : JoinOrder) : a.isAheadOf a o = false := by
  rw [Bool.eq_false_iff, ne_eq, isAheadOf_iff]
  rintro (⟨h, h'⟩ | ⟨-, h⟩)
  · exact absurd (h.symm.trans h') (by decide)
  · exact lt_irrefl _ h

theorem isAheadOf_asymm {a b : Checkpoint} {o : JoinOrder} (h : a.isAheadOf b o = true) :
    b.isAheadOf a o = false := by
  rw [Bool.eq_false_iff, ne_eq]
  rw [isAheadOf_iff] at h ⊢
  rintro (⟨hb, ha⟩ | ⟨heq, hlt⟩)
  · rcases h with ⟨ha', -⟩ | ⟨heq, -⟩
    · exact absurd (ha.symm.trans ha') (by decide)
    · exact absurd (ha.symm.trans (heq.trans hb)) (by decide)
  · rcases h with ⟨ha, hb⟩ | ⟨-, hlt'⟩
    · exact absurd (hb.symm.trans (heq.trans ha)) (by decide)
    · exact lt_asymm hlt hlt'

/-- Not being ahead is transitive. -/
theorem not_isAheadOf_trans {a b c : Checkpoint} {o : JoinOrder} (hab : a.isAheadOf b o = false)
    (hbc : b.isAheadOf c o = false) : a.isAheadOf c o = false := by
  rw [Bool.eq_false_iff, ne_eq, isAheadOf_iff] at hab hbc ⊢
  push Not at hab hbc ⊢
  obtain ⟨hab1, hab2⟩ := hab
  obtain ⟨hbc1, hbc2⟩ := hbc
  cases ha : a.finished <;> cases hb : b.finished <;> cases hc : c.finished <;> simp_all
  · exact hab2.trans hbc2
  · exact hab2.trans hbc2

end Checkpoint

/-! ### Initial parts of orders -/

namespace JoinOrder

/-- Some tables are the first ones of an order, at least one and not all of them. -/
structure IsPart (o : JoinOrder) (path : List Nat) : Prop where
  pos : 0 < path.length
  lt : path.length < o.size
  begins : path <+: o.toList

variable {o : JoinOrder} {path : List Nat}

theorem isPart_take {n : Nat} (hpos : 0 < n) (hlt : n < o.size) : o.IsPart (o.toList.take n) := by
  have hlen : (o.toList.take n).length = n := List.length_take_of_le hlt.le
  exact ⟨by rwa [hlen], by rwa [hlen], List.take_prefix n o.toList⟩

theorem IsPart.take_length (h : o.IsPart path) : o.toList.take path.length = path :=
  (List.prefix_iff_eq_take.1 h.begins).symm

end JoinOrder

namespace Memory

/-! ### The best of some checkpoints -/

/-- Going through some offers and keeping the best one. -/
theorem foldl_best {o : JoinOrder} {f : Nat → Option Checkpoint} {ns : List Nat}
    {own best : Checkpoint}
    (hbest : ns.foldl (fun best n => match f n with
      | some c => if c.isAheadOf best o then c else best
      | none => best) own = best) :
    (best = own ∨ ∃ n ∈ ns, f n = some best) ∧ own.isAheadOf best o = false ∧
      ∀ n ∈ ns, ∀ c, f n = some c → c.isAheadOf best o = false := by
  -- Induction on the offers: the best of the rest starts from the better of the first two.
  induction ns generalizing own with
  | nil =>
    obtain rfl := hbest
    exact ⟨Or.inl rfl, own.isAheadOf_self o, fun n hn => absurd hn (by simp)⟩
  | cons n ns ih =>
    rw [List.foldl_cons] at hbest
    obtain ⟨hmem, hstill, hall⟩ := ih hbest
    cases hn : f n with
    | none =>
      simp only [hn] at hmem hstill
      -- No offer of this length, so everything is said of the rest.
      refine ⟨hmem.imp id fun ⟨n', hn', h⟩ => ⟨n', List.mem_cons_of_mem _ hn', h⟩, hstill,
        fun n' hn' c hc => ?_⟩
      rcases List.mem_cons.1 hn' with rfl | hn'
      · exact absurd (hn.symm.trans hc) (by simp)
      · exact hall n' hn' c hc
    | some c =>
      simp only [hn] at hmem hstill
      -- The one that is taken up is not behind the own checkpoint nor behind the offer.
      have hle : own.isAheadOf (if c.isAheadOf own o then c else own) o = false ∧
          c.isAheadOf (if c.isAheadOf own o then c else own) o = false := by
        split
        · rename_i hahead
          exact ⟨Checkpoint.isAheadOf_asymm hahead, c.isAheadOf_self o⟩
        · rename_i hahead
          exact ⟨own.isAheadOf_self o, Bool.eq_false_iff.2 hahead⟩
      refine ⟨?_, Checkpoint.not_isAheadOf_trans hle.1 hstill, fun n' hn' c' hc' => ?_⟩
      · -- The best is the one taken up, or an offer of the rest.
        rcases hmem with heq | ⟨n', hn', h⟩
        · rw [heq]
          split
          · exact Or.inr ⟨n, List.mem_cons_self, hn⟩
          · exact Or.inl rfl
        · exact Or.inr ⟨n', List.mem_cons_of_mem _ hn', h⟩
      · rcases List.mem_cons.1 hn' with rfl | hn'
        · -- The offer itself: it is not ahead of the one taken up, which is not ahead of the best.
          obtain rfl := Option.some.inj (hn.symm.trans hc')
          exact Checkpoint.not_isAheadOf_trans hle.2 hstill
        · exact hall n' hn' c' hc'

/-- The checkpoint of the own runs of an order. -/
def ownCheckpoint (m : Memory) (progress : Progress) (order : JoinOrder) : Checkpoint :=
  m.states[order]?.getD (.start progress.nrTables)

theorem mem_lengths_iff {n size : Nat} : n ∈ (List.range size).drop 1 ↔ 0 < n ∧ n < size := by
  rw [List.mem_drop_iff_getElem]
  simp only [List.length_range, List.getElem_range]
  exact ⟨fun ⟨i, hi, heq⟩ => by omega, fun h => ⟨n - 1, by omega, by omega⟩⟩

variable (m : Memory) (progress : Progress) (order : JoinOrder)

/-- **An order goes on from its own checkpoint or from one that an initial part offers.** -/
theorem continueFrom_mem :
    m.continueFrom progress order = m.ownCheckpoint progress order ∨
      ∃ n, 0 < n ∧ n < order.size ∧
        m.checkpointOn? progress order n = some (m.continueFrom progress order) := by
  obtain ⟨hmem, -⟩ := foldl_best (show _ = m.continueFrom progress order from rfl)
  apply hmem.imp id
  rintro ⟨n, hn, h⟩
  rw [List.mem_reverse, mem_lengths_iff] at hn
  exact ⟨n, hn.1, hn.2, h⟩

/-- **No checkpoint that an order could go on from is further ahead.** -/
theorem isAheadOf_continueFrom :
    (m.ownCheckpoint progress order).isAheadOf (m.continueFrom progress order) order = false ∧
      ∀ n, 0 < n → n < order.size → ∀ c, m.checkpointOn? progress order n = some c →
        c.isAheadOf (m.continueFrom progress order) order = false := by
  obtain ⟨-, hown, hall⟩ := foldl_best (show _ = m.continueFrom progress order from rfl)
  refine ⟨hown, fun n hpos hlt c hc => hall n ?_ c hc⟩
  rw [List.mem_reverse, mem_lengths_iff]
  exact ⟨hpos, hlt⟩

/-! ### Checkpoints on initial parts -/

section CheckpointAt

theorem row_foldl_set_of_not_mem {tables rows : List Nat} {tuple : Tuple} {table : Nat}
    (h : table ∉ tables) :
    Tuple.row ((tables.zip rows).foldl (fun t (table, row) => t.setIfInBounds table row) tuple)
      table = tuple.row table := by
  induction tables generalizing rows tuple with
  | nil => rfl
  | cons t ts ih =>
    rw [List.mem_cons, not_or] at h
    cases rows with
    | nil => rfl
    | cons r rs =>
      rw [List.zip_cons_cons, List.foldl_cons, ih h.2, Tuple.row_setIfInBounds,
        if_neg fun heq => h.1 heq.1.symm]

theorem size_foldl_set (pairs : List (Nat × Nat)) (tuple : Tuple) :
    (pairs.foldl (fun t (table, row) => t.setIfInBounds table row) tuple).size = tuple.size := by
  induction pairs generalizing tuple with
  | nil => rfl
  | cons pair pairs ih => rw [List.foldl_cons, ih, Array.size_setIfInBounds]

/-- Setting the rows of different tables sets them all. -/
theorem map_row_foldl_set {tables rows : List Nat} {tuple : Tuple} (hnodup : tables.Nodup)
    (hlt : ∀ t ∈ tables, t < tuple.size) (hlen : rows.length = tables.length) :
    tables.map (Tuple.row
      ((tables.zip rows).foldl (fun t (table, row) => t.setIfInBounds table row) tuple)) =
        rows := by
  induction tables generalizing rows tuple with
  | nil => exact (List.length_eq_zero_iff.1 hlen).symm
  | cons t ts ih =>
    cases rows with
    | nil => exact absurd hlen (by simp)
    | cons r rs =>
      obtain ⟨hnot, hnodup⟩ := List.nodup_cons.1 hnodup
      have ht := hlt t List.mem_cons_self
      rw [List.zip_cons_cons, List.foldl_cons, List.map_cons, row_foldl_set_of_not_mem hnot,
        Tuple.row_setIfInBounds, if_pos ⟨rfl, ht⟩,
        ih hnodup (fun t' ht' => ?_) (by simpa using hlen)]
      rw [Array.size_setIfInBounds]
      exact hlt t' (List.mem_cons_of_mem _ ht')

variable {progress : Progress} {tables rows : List Nat}

theorem size_checkpointAt : (checkpointAt progress tables rows).tuple.size = progress.nrTables := by
  unfold checkpointAt
  rw [size_foldl_set, Array.size_replicate]

/-- The checkpoint of an initial part holds its rows. -/
theorem map_row_checkpointAt (hnodup : tables.Nodup) (hlt : ∀ t ∈ tables, t < progress.nrTables)
    (hlen : rows.length = tables.length) :
    tables.map (checkpointAt progress tables rows).tuple.row = rows :=
  map_row_foldl_set hnodup (by simpa using hlt) hlen

/-- Outside the initial part all tables stand at their first row. -/
theorem row_checkpointAt_of_not_mem {table : Nat} (h : table ∉ tables) :
    (checkpointAt progress tables rows).tuple.row table = 0 := by
  unfold checkpointAt
  rw [row_foldl_set_of_not_mem h, Tuple.row]
  by_cases hlt : table < progress.nrTables <;> simp [hlt]

theorem finished_checkpointAt :
    (checkpointAt progress tables rows).finished =
      decide (progress.cardinality (tables.headD 0) ≤ rows.headD 0) := rfl

end CheckpointAt

/-! ### Recording -/

section Record

variable {m : Memory} {order : JoinOrder} {c : Checkpoint}

theorem recordState_states {o : JoinOrder} {c' : Checkpoint}
    (h : (m.recordState order c).states[o]? = some c') :
    m.states[o]? = some c' ∨ (o = order ∧ c' = c) := by
  unfold recordState at h
  split at h
  · split at h
    · exact Or.inl h
    · rw [Std.HashMap.getElem?_insert] at h
      split at h
      · rename_i heq
        exact Or.inr ⟨(eq_of_beq heq).symm, (Option.some.inj h).symm⟩
      · exact Or.inl h
  · rw [Std.HashMap.getElem?_insert] at h
    split at h
    · rename_i heq
      exact Or.inr ⟨(eq_of_beq heq).symm, (Option.some.inj h).symm⟩
    · exact Or.inl h

@[simp]
theorem recordState_worker : (m.recordState order c).worker = m.worker := by
  unfold recordState
  split
  · split <;> rfl
  · rfl

@[simp]
theorem recordState_paths : (m.recordState order c).paths = m.paths := by
  unfold recordState
  split
  · split <;> rfl
  · rfl

@[simp]
theorem recordPath_worker (m : Memory) (path rows : List Nat) :
    (m.recordPath path rows).worker = m.worker := by
  unfold recordPath
  split
  · split <;> rfl
  · rfl

@[simp]
theorem recordPath_states (m : Memory) (path rows : List Nat) :
    (m.recordPath path rows).states = m.states := by
  unfold recordPath
  split
  · split <;> rfl
  · rfl

/-- The rows remembered on an initial part are the greatest ones. -/
theorem getElem?_recordPath (m : Memory) (path rows path' : List Nat) :
    (m.recordPath path rows).paths[path']? =
      if path = path' then some (m.paths[path]?.elim rows (max · rows)) else m.paths[path']? := by
  have hinsert : (m.paths.insert path rows)[path']? =
      if path = path' then some rows else m.paths[path']? := by
    simp only [Std.HashMap.getElem?_insert, beq_iff_eq]
  unfold recordPath
  cases hold : m.paths[path]? with
  | none => exact hinsert
  | some old =>
    dsimp only [Option.elim_some]
    rw [max_def_lt]
    by_cases hlt : old < rows
    · rw [if_pos (beq_iff_eq.2 (compareLex_eq_gt_iff.2 hlt)), if_pos hlt]
      exact hinsert
    · rw [if_neg (fun hgt => hlt (compareLex_eq_gt_iff.1 (beq_iff_eq.1 hgt))), if_neg hlt]
      split
      · rename_i heq
        exact heq ▸ hold
      · rfl

/-- Recording initial parts leaves the worker and its checkpoints alone. -/
theorem foldl_recordPath (ns : List Nat) (m : Memory) (tables rows : List Nat) :
    (ns.foldl (fun m n => m.recordPath (tables.take n) (rows.take n)) m).worker = m.worker ∧
    (ns.foldl (fun m n => m.recordPath (tables.take n) (rows.take n)) m).states = m.states := by
  induction ns generalizing m with
  | nil => exact ⟨rfl, rfl⟩
  | cons n ns ih =>
    obtain ⟨hworker, hstates⟩ := ih (m.recordPath (tables.take n) (rows.take n))
    rw [List.foldl_cons]
    exact ⟨hworker.trans (recordPath_worker _ _ _), hstates.trans (recordPath_states _ _ _)⟩

/-- Recording the initial parts of some lengths. -/
theorem getElem?_foldl_recordPath {ns : List Nat} (hns : ns.Nodup) {tables : List Nat}
    (hle : ∀ n ∈ ns, n ≤ tables.length) (m : Memory) (rows path : List Nat) :
    (ns.foldl (fun m n => m.recordPath (tables.take n) (rows.take n)) m).paths[path]? =
      if path.length ∈ ns ∧ path <+: tables then
        some (m.paths[path]?.elim (rows.take path.length) (max · (rows.take path.length)))
      else m.paths[path]? := by
  induction ns generalizing m with
  | nil => simp
  | cons n ns ih =>
    obtain ⟨hn, hns⟩ := List.nodup_cons.1 hns
    rw [List.foldl_cons, ih hns (fun n' hn' => hle n' (List.mem_cons_of_mem n hn')),
      getElem?_recordPath]
    by_cases hpath : tables.take n = path
    · -- No other length leads to the same initial part.
      have hlen : path.length = n := by
        rw [← hpath, List.length_take]
        exact Nat.min_eq_left (hle n List.mem_cons_self)
      have hbegins : path <+: tables := by
        rw [← hpath]
        exact List.take_prefix n tables
      rw [if_neg (fun h => hn (hlen ▸ h.1)), if_pos hpath, hpath, hlen,
        if_pos ⟨List.mem_cons_self, hbegins⟩]
    · -- The initial part of this length is another one.
      have hiff : (path.length ∈ n :: ns ∧ path <+: tables) ↔
          (path.length ∈ ns ∧ path <+: tables) := by
        refine and_congr_left fun hbegins => ?_
        rw [List.mem_cons, or_iff_right]
        rintro rfl
        exact hpath (List.prefix_iff_eq_take.1 hbegins).symm
      rw [if_neg hpath]
      simp only [hiff]

@[simp]
theorem record_worker (m : Memory) (order : JoinOrder) (c : Checkpoint) :
    (m.record order c).worker = m.worker := by
  unfold record
  rw [(foldl_recordPath _ _ _ _).1, recordState_worker]

/-- **A checkpoint that is remembered was remembered before or has been recorded.** -/
theorem record_states {o : JoinOrder} {c' : Checkpoint}
    (h : (m.record order c).states[o]? = some c') :
    m.states[o]? = some c' ∨ (o = order ∧ c' = c) := by
  unfold record at h
  rw [(foldl_recordPath _ _ _ _).2] at h
  exact recordState_states h

/-- Recording a checkpoint of one order leaves the checkpoints of the others alone. -/
theorem record_states_of_ne {o : JoinOrder} (hne : o ≠ order) (m : Memory) (c : Checkpoint) :
    (m.record order c).states[o]? = m.states[o]? := by
  have hinsert : (m.states.insert order c)[o]? = m.states[o]? := by
    rw [Std.HashMap.getElem?_insert, if_neg]
    simpa using Ne.symm hne
  unfold record
  rw [(foldl_recordPath _ _ _ _).2, recordState]
  split
  · split
    · rfl
    · exact hinsert
  · exact hinsert

theorem take_rows_eq {path : List Nat} (h : path <+: order.toList) :
    (c.rows order).take path.length = path.map c.tuple.row := by
  rw [Checkpoint.rows, ← List.map_take, ← List.prefix_iff_eq_take.1 h]

/-- The rows remembered on some path after recording a checkpoint. -/
theorem getElem?_paths_record (m : Memory) (order : JoinOrder) (c : Checkpoint) (path : List Nat) :
    (m.record order c).paths[path]? =
      if path.length ∈ (List.range order.size).drop 1 ∧ path <+: order.toList then
        some (m.paths[path]?.elim ((c.rows order).take path.length)
          (max · ((c.rows order).take path.length)))
      else m.paths[path]? := by
  rw [record, getElem?_foldl_recordPath (List.nodup_range.sublist (List.drop_sublist _ _)),
    recordState_paths]
  intro n hn
  exact (mem_lengths_iff.1 hn).2.le

/-- **What is remembered on an initial part of the order is the greatest of the rows remembered so
far and those of the checkpoint.** -/
theorem getElem?_paths_record_of_isPart {path : List Nat} (h : order.IsPart path) :
    (m.record order c).paths[path]? =
      some (m.paths[path]?.elim (path.map c.tuple.row) (max · (path.map c.tuple.row))) := by
  rw [getElem?_paths_record, if_pos ⟨mem_lengths_iff.2 ⟨h.pos, h.lt⟩, h.begins⟩,
    take_rows_eq h.begins]

/-- Nothing else changes. -/
theorem getElem?_paths_record_of_not_isPart {path : List Nat} (h : ¬order.IsPart path) :
    (m.record order c).paths[path]? = m.paths[path]? := by
  rw [getElem?_paths_record, if_neg]
  rintro ⟨hlength, hbegins⟩
  obtain ⟨hpos, hlt⟩ := mem_lengths_iff.1 hlength
  exact h ⟨hpos, hlt, hbegins⟩

/-- **Rows that are remembered were remembered before or are the first rows of the checkpoint.** -/
theorem record_paths {path rows : List Nat}
    (h : (m.record order c).paths[path]? = some rows) :
    m.paths[path]? = some rows ∨
      ∃ n, 0 < n ∧ n < order.size ∧ path = order.toList.take n ∧ rows = (c.rows order).take n := by
  by_cases hpath : order.IsPart path
  · have hnew : ∃ n, 0 < n ∧ n < order.size ∧ path = order.toList.take n ∧
        path.map c.tuple.row = (c.rows order).take n :=
      ⟨path.length, hpath.pos, hpath.lt, hpath.take_length.symm,
        (take_rows_eq hpath.begins).symm⟩
    rw [getElem?_paths_record_of_isPart hpath, Option.some.injEq] at h
    subst h
    cases hold : m.paths[path]? with
    | none => exact Or.inr hnew
    | some old =>
      rw [Option.elim_some]
      rcases le_total old (path.map c.tuple.row) with hle | hle
      · rw [max_eq_right hle]
        exact Or.inr hnew
      · exact Or.inl (congrArg some (max_eq_left hle).symm)
  · rw [getElem?_paths_record_of_not_isPart hpath] at h
    exact Or.inl h

/-- The own checkpoint of an order after recording another one: the one that is further ahead. -/
theorem record_states_self (m : Memory) (order : JoinOrder) (c : Checkpoint) :
    (m.record order c).states[order]? = some (match m.states[order]? with
      | some old => if old.isAheadOf c order then old else c
      | none => c) := by
  unfold record
  rw [(foldl_recordPath _ _ _ _).2, recordState]
  cases hold : m.states[order]? with
  | none => exact Std.HashMap.getElem?_insert_self
  | some old =>
    by_cases hahead : old.isAheadOf c order = true
    · simp only [hahead, if_true]
      exact hold
    · simp only [hahead, Bool.false_eq_true, if_false]
      exact Std.HashMap.getElem?_insert_self

/-- **The checkpoint remembered of an order is behind neither the one that is recorded nor the one
remembered before.** -/
theorem record_states_not_behind (m : Memory) (order : JoinOrder) (c : Checkpoint) :
    ∃ c', (m.record order c).states[order]? = some c' ∧ c.isAheadOf c' order = false ∧
      ∀ old, m.states[order]? = some old → old.isAheadOf c' order = false := by
  refine ⟨_, record_states_self m order c, ?_⟩
  cases m.states[order]? with
  | none => exact ⟨c.isAheadOf_self order, fun old hold => absurd hold (by simp)⟩
  | some old =>
    dsimp only
    split
    · rename_i hahead
      refine ⟨Checkpoint.isAheadOf_asymm hahead, ?_⟩
      intro old' hold
      obtain rfl := Option.some.inj hold
      exact old.isAheadOf_self order
    · rename_i hahead
      refine ⟨c.isAheadOf_self order, ?_⟩
      intro old' hold
      obtain rfl := Option.some.inj hold
      exact Bool.eq_false_iff.2 hahead

/-- **The rows remembered on an initial part are not behind a checkpoint that is recorded.** -/
theorem record_paths_not_lt {n : Nat} (hpos : 0 < n) (hn : n < order.size) {rows : List Nat}
    (h : (m.record order c).paths[order.toList.take n]? = some rows) :
    ¬rows < (c.rows order).take n := by
  have hpath : order.IsPart (order.toList.take n) := JoinOrder.isPart_take hpos hn
  rw [getElem?_paths_record_of_isPart hpath, Option.some.injEq] at h
  rw [Checkpoint.rows, ← List.map_take, not_lt, ← h]
  cases m.paths[order.toList.take n]? with
  | none => exact le_refl _
  | some old => exact le_max_right _ _

end Record

end Memory

end AdaptiveJoin
