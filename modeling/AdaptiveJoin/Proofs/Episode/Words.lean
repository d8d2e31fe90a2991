import AdaptiveJoin.Proofs.Episode.Ascent

/-!
# Moving a position in machine words

Rows, cardinalities and offsets are words of 32 bits; what may exceed them is computed in 64 bits
and narrowed again.  `Episode.seekWords?` and `Episode.stepWords?` move a position by operations on
words that fail when a sum or a difference wraps around or when narrowing loses a bit.

* `Episode.computes_seekWords?` and `Episode.computes_stepWords?`: no operation fails, and the words
  are the rows that `seek` and `step` move to, as long as tables stay below `rowLimit` and there are
  at most `maxWorkers` workers.

The sums need the 64 bits: a table may have so many rows that its last row plus the number of
workers is no word of 32 bits any more.
-/

namespace AdaptiveJoin

/-! ### Words -/

/-- A number as a word of `n` bits, if it is one. -/
def word? (n k : Nat) : Option (BitVec n) := if k < 2 ^ n then some (.ofNat n k) else none

namespace Word

variable {m n : Nat} {a b : BitVec n}

/-- The sum of two words, unless it wraps around. -/
def add? (a b : BitVec n) : Option (BitVec n) :=
  if a.toNat + b.toNat < 2 ^ n then some (a + b) else none

/-- The difference of two words, unless it wraps around. -/
def sub? (a b : BitVec n) : Option (BitVec n) := if b ≤ a then some (a - b) else none

/-- The remainder of two words, unless the second one is 0. -/
def mod? (a b : BitVec n) : Option (BitVec n) := if b = 0 then none else some (a % b)

/-- A word with another number of bits, unless some of them are lost. -/
def resize? (m : Nat) (a : BitVec n) : Option (BitVec m) :=
  if a.toNat < 2 ^ m then some (a.setWidth m) else none

/-- The next word, and the largest one from itself. -/
def saturatingSucc (a : BitVec n) : BitVec n := (add? a 1).getD (.allOnes n)

def least (a b : BitVec n) : BitVec n := if a ≤ b then a else b

def greatest (a b : BitVec n) : BitVec n := if a ≤ b then b else a

/-- An operation on words gives a number. -/
def Gives (a? : Option (BitVec n)) (k : Nat) : Prop := ∃ a, a? = some a ∧ a.toNat = k

theorem gives_word? {k : Nat} (h : k < 2 ^ n) : Gives (word? n k) k :=
  ⟨.ofNat n k, if_pos h, by rw [BitVec.toNat_ofNat, Nat.mod_eq_of_lt h]⟩

theorem gives_add? (h : a.toNat + b.toNat < 2 ^ n) : Gives (add? a b) (a.toNat + b.toNat) :=
  ⟨a + b, if_pos h, BitVec.toNat_add_of_lt h⟩

theorem gives_sub? (h : b.toNat ≤ a.toNat) : Gives (sub? a b) (a.toNat - b.toNat) :=
  ⟨a - b, if_pos h, BitVec.toNat_sub_of_le h⟩

theorem gives_mod? (h : 0 < b.toNat) : Gives (mod? a b) (a.toNat % b.toNat) := by
  refine ⟨a % b, if_neg ?_, BitVec.toNat_umod⟩
  rintro rfl
  simp at h

theorem gives_resize? (h : a.toNat < 2 ^ m) : Gives (resize? m a) a.toNat :=
  ⟨a.setWidth m, if_pos h, by rw [BitVec.toNat_setWidth, Nat.mod_eq_of_lt h]⟩

theorem toNat_saturatingSucc (hn : 0 < n) (a : BitVec n) :
    (saturatingSucc a).toNat = min (a.toNat + 1) (2 ^ n - 1) := by
  have hone : (1 : BitVec n).toNat = 1 := BitVec.toNat_one hn
  have ha := a.isLt
  unfold saturatingSucc
  by_cases hlt : a.toNat + (1 : BitVec n).toNat < 2 ^ n
  · obtain ⟨c, hc, hval⟩ := gives_add? hlt
    rw [hc, Option.getD_some, hval, hone]
    omega
  · rw [add?, if_neg hlt, Option.getD_none, BitVec.toNat_allOnes]
    omega

theorem toNat_least (a b : BitVec n) : (least a b).toNat = min a.toNat b.toNat := by
  unfold least
  split
  · rename_i hle
    exact (Nat.min_eq_left hle).symm
  · rename_i hgt
    exact (Nat.min_eq_right (Nat.le_of_not_le hgt)).symm

theorem toNat_greatest (a b : BitVec n) : (greatest a b).toNat = max a.toNat b.toNat := by
  unfold greatest
  split
  · rename_i hle
    exact (Nat.max_eq_right hle).symm
  · rename_i hgt
    exact (Nat.max_eq_left (Nat.le_of_not_le hgt)).symm

end Word

/-! ### Walks in words -/

/-- The rows of a walk as words, and its cursors. -/
structure WordWalk where
  tuple : Array (BitVec 32)
  cursors : Array Cursor

namespace WordWalk

/-- Moves a table to a row. -/
def setRow (v : WordWalk) (table : Nat) (row : BitVec 32) : WordWalk :=
  { v with tuple := v.tuple.setIfInBounds table row }

/-- The words of a walk are its rows. -/
structure Holds (v : WordWalk) (w : Walk) : Prop where
  tuple_eq : v.tuple.map BitVec.toNat = w.tuple
  cursors_eq : v.cursors = w.cursors

/-- Operations on words lead to a walk. -/
def Computes (v? : Option WordWalk) (w : Walk) : Prop := ∃ v, v? = some v ∧ v.Holds w

variable {v : WordWalk} {w : Walk} {table row : Nat}

theorem Holds.gives_row (h : v.Holds w) (ht : table < w.tuple.size) :
    Word.Gives v.tuple[table]? (w.row table) := by
  have hlt : table < v.tuple.size := by
    rwa [← h.tuple_eq, Array.size_map] at ht
  refine ⟨v.tuple[table], Array.getElem?_eq_getElem hlt, ?_⟩
  show _ = w.tuple[table]?.getD 0
  rw [← h.tuple_eq, Array.getElem?_map, Array.getElem?_eq_getElem hlt]
  rfl

theorem Holds.setRow (h : v.Holds w) {a : BitVec 32} (ha : a.toNat = row) :
    (v.setRow table a).Holds (w.setRow table row) := by
  refine ⟨?_, h.cursors_eq⟩
  show (v.tuple.setIfInBounds table a).map BitVec.toNat = w.tuple.setIfInBounds table row
  rw [Array.map_setIfInBounds, h.tuple_eq, ha]

/-- A walk whose rows are words has words. -/
theorem exists_holds (h : ∀ x ∈ w.tuple, x < 2 ^ 32) : ∃ v : WordWalk, v.Holds w := by
  refine ⟨⟨w.tuple.map (BitVec.ofNat 32), w.cursors⟩, ?_, rfl⟩
  rw [Array.map_map]
  conv_rhs => rw [← Array.map_id' w.tuple]
  apply Array.map_congr_left
  intro x hx
  show (BitVec.ofNat 32 x).toNat = x
  rw [BitVec.toNat_ofNat, Nat.mod_eq_of_lt (h x hx)]

end WordWalk

namespace Episode

/-! ### Moving a position -/

section Definitions

variable (e : Episode)

/-- The first row of the worker's share at or after a row. -/
def alignWords? (row : BitVec 32) : Option (BitVec 64) := do
  let worker ← word? 64 e.worker
  let workers ← word? 64 e.workers
  let row ← Word.resize? 64 row
  let ahead ← Word.sub? (← Word.add? worker workers) (← Word.mod? row workers)
  Word.add? row (← Word.mod? ahead workers)

/-- Moves a table to the first row after `after` that a lookup finds, or behind its last row. -/
def lookUpWords? (l : Lookup) (table : Nat) (after : Int) (v : WordWalk) : Option WordWalk := do
  let (row?, cursor) := l.next (v.tuple.map BitVec.toNat) after (v.cursors[table]?.getD .fresh)
  let row ← word? 32 (row?.getD (e.cardinality table))
  some { v.setRow table row with cursors := v.cursors.setIfInBounds table cursor }

/-- Moves a position to the row behind the current one that its lookup finds next. -/
def moveOnWords? (pos : Nat) (v : WordWalk) : Option WordWalk := do
  let table := e.tableAt pos
  let row ← v.tuple[table]?
  match e.lookup? pos with
  | some l => e.lookUpWords? l table row.toNat v
  | none => (Word.add? row 1).map (v.setRow table)

/-- Passes over candidates that are joined completely, in a number of rounds. -/
def skipCoveredWords? (pos : Nat) : Nat → WordWalk → Option WordWalk
  | 0, v => some v
  | rounds + 1, v => do
    let table := e.tableAt pos
    let cardinality ← word? 32 (e.cardinality table)
    let row ← v.tuple[table]?
    if row < cardinality && e.snapshot.covers table row.toNat then
      skipCoveredWords? pos rounds (← e.moveOnWords? pos v)
    else some v

/-- Passes over candidates that are joined completely, except at the outermost position. -/
def skipJoinedWords? (pos : Nat) (v : WordWalk) : Option WordWalk :=
  if pos = 0 then some v else e.skipCoveredWords? pos (e.cardinality (e.tableAt pos)) v

/-- The row from which a position goes on. -/
def seekStartWords? (pos : Nat) (v : WordWalk) : Option (BitVec 32) := do
  let table := e.tableAt pos
  let cardinality ← word? 32 (e.cardinality table)
  let bounded := Word.greatest (← v.tuple[table]?) (← word? 32 (e.lowerBound pos))
  if pos = 0 then
    Word.resize? 32 (Word.least (← e.alignWords? bounded) (← Word.resize? 64 cardinality))
  else some bounded

/-- Where `seekWords?` moves a position before it passes over covered rows. -/
def seekFoundWords? (pos : Nat) (v : WordWalk) : Option WordWalk := do
  let table := e.tableAt pos
  let cardinality ← word? 32 (e.cardinality table)
  let row ← e.seekStartWords? pos v
  if row < cardinality then
    match e.lookup? pos with
    | some l => e.lookUpWords? l table ((row.toNat : Int) - 1) v
    | none => some (v.setRow table row)
  else some (v.setRow table cardinality)

/-- Where `stepWords?` moves a position before it passes over covered rows. -/
def stepFoundWords? (pos : Nat) (v : WordWalk) : Option WordWalk := do
  let table := e.tableAt pos
  let cardinality ← word? 32 (e.cardinality table)
  let row ← v.tuple[table]?
  match e.lookup? pos with
  | some l => e.lookUpWords? l table row.toNat v
  | none =>
    if pos = 0 then
      let next ← Word.add? (← Word.resize? 64 row) (← word? 64 e.workers)
      let next ← Word.resize? 32 (Word.least next (← Word.resize? 64 cardinality))
      some (v.setRow table next)
    else some (v.setRow table (Word.least (Word.saturatingSucc row) cardinality))

/-- Moves a position to its first candidate at or after its current row, or behind the last row. -/
def seekWords? (pos : Nat) (v : WordWalk) : Option WordWalk :=
  (e.seekFoundWords? pos v).bind (e.skipJoinedWords? pos)

/-- Moves a position to its next candidate, or behind the last row. -/
def stepWords? (pos : Nat) (v : WordWalk) : Option WordWalk :=
  (e.stepFoundWords? pos v).bind (e.skipJoinedWords? pos)

end Definitions

/-- An episode over tables that are not too large, with offsets that are words and no more workers
than there may be. -/
structure FitsWords (e : Episode) : Prop where
  cardinality_lt : ∀ table, e.cardinality table < rowLimit
  lowerBound_lt : ∀ pos, e.lowerBound pos < 2 ^ 32
  worker_lt : e.worker < e.workers
  workers_le : e.workers ≤ maxWorkers

variable {e : Episode} {pos : Nat} {v : WordWalk} {w : Walk}

namespace FitsWords

theorem gives_cardinality (h : e.FitsWords) (table : Nat) :
    Word.Gives (word? 32 (e.cardinality table)) (e.cardinality table) := by
  have hlt := h.cardinality_lt table
  exact Word.gives_word? (by simp only [rowLimit] at hlt; omega)

/-- A walk within the tables has words. -/
theorem exists_holds (h : e.FitsWords) (hw : e.Fits w) : ∃ v : WordWalk, v.Holds w := by
  apply WordWalk.exists_holds
  intro x hx
  obtain ⟨table, ht, rfl⟩ := Array.getElem_of_mem hx
  have hrow : w.row table = w.tuple[table] := by
    show w.tuple[table]?.getD 0 = _
    rw [Array.getElem?_eq_getElem ht, Option.getD_some]
  have hle := hw.row_le table (hw.size ▸ ht)
  have hlt := h.cardinality_lt table
  simp only [rowLimit] at hlt
  omega

end FitsWords

section Computes

variable (h : e.FitsWords) (hasc : e.IsAscending) (hpos : pos < e.task.query.nrTables)
  (hsize : w.tuple.size = e.task.query.nrTables) (hv : v.Holds w)

include h in
theorem gives_alignWords? (row : BitVec 32) :
    Word.Gives (e.alignWords? row) (e.alignToShare row.toNat) := by
  have hworker := h.worker_lt
  have hworkers : e.workers ≤ 64 := h.workers_le
  have hrow := row.isLt
  obtain ⟨worker, hw, hwval⟩ := Word.gives_word? (n := 64) (k := e.worker) (by omega)
  obtain ⟨workers, hn, hnval⟩ := Word.gives_word? (n := 64) (k := e.workers) (by omega)
  obtain ⟨wide, hr, hrval⟩ := Word.gives_resize? (m := 64) (a := row) (by omega)
  obtain ⟨sum, hsum, hsumval⟩ := Word.gives_add? (a := worker) (b := workers) (by omega)
  obtain ⟨rest, hrest, hrestval⟩ := Word.gives_mod? (a := wide) (b := workers) (by omega)
  have hrestlt : rest.toNat < e.workers := by
    rw [hrestval, hnval]
    exact Nat.mod_lt _ (by omega)
  -- The rest is below the number of workers, so the difference does not wrap around.
  obtain ⟨ahead, hahead, haheadval⟩ := Word.gives_sub? (a := sum) (b := rest) (by omega)
  obtain ⟨gap, hgap, hgapval⟩ := Word.gives_mod? (a := ahead) (b := workers) (by omega)
  have hgaplt : gap.toNat < e.workers := by
    rw [hgapval, hnval]
    exact Nat.mod_lt _ (by omega)
  obtain ⟨aligned, haligned, hval⟩ := Word.gives_add? (a := wide) (b := gap) (by omega)
  refine ⟨aligned, ?_, ?_⟩
  · simp [alignWords?, hw, hn, hr, hsum, hrest, hahead, hgap, haligned]
  · rw [hval, hgapval, haheadval, hsumval, hrestval, hrval, hwval, hnval]
    rfl

include h in
theorem computes_lookUpWords? {l : Lookup} {table : Nat} (hl : l.Ascends (e.cardinality table))
    (hv : v.Holds w) (after : Int) :
    WordWalk.Computes (e.lookUpWords? l table after v) (e.lookUp l table after w) := by
  have hlt := h.cardinality_lt table
  unfold lookUpWords? lookUp
  rw [hv.tuple_eq, hv.cursors_eq]
  cases hnext : l.next w.tuple after (w.cursors[table]?.getD .fresh) with
  | mk row? cursor =>
    -- A row that is found is one of the table, so it is a word.
    have hrow : row?.getD (e.cardinality table) < 2 ^ 32 := by
      cases row? with
      | none => exact hlt.trans (by decide)
      | some found =>
        have hfound := (hl w.tuple after (w.cursors[table]?.getD .fresh) found (by rw [hnext])).2
        exact (hfound.trans hlt).trans (by decide)
    obtain ⟨row, hword, hval⟩ := Word.gives_word? hrow
    refine ⟨{ v.setRow table row with cursors := w.cursors.setIfInBounds table cursor },
      ?_, ?_, rfl⟩
    · simp [hword]
    · exact (hv.setRow hval).tuple_eq

include hasc hpos hsize hv in
theorem gives_current : Word.Gives v.tuple[e.tableAt pos]? (w.row (e.tableAt pos)) :=
  hv.gives_row (hsize ▸ hasc.tableAt_lt hpos)

include h hasc hpos

include hsize hv in
theorem computes_moveOnWords? (hlt : w.row (e.tableAt pos) < e.cardinality (e.tableAt pos)) :
    WordWalk.Computes (e.moveOnWords? pos v) (e.moveOn pos w) := by
  have hlimit := h.cardinality_lt (e.tableAt pos)
  obtain ⟨row, hrow, hval⟩ := gives_current hasc hpos hsize hv
  unfold moveOnWords? moveOn
  cases hl : e.lookup? pos with
  | some l =>
    obtain ⟨v', hv', hholds⟩ := computes_lookUpWords? h (hasc.ascends pos hpos l hl) hv row.toNat
    exact ⟨v', by simp [hrow, hv'], by rwa [hval] at hholds⟩
  | none =>
    have hone : (1 : BitVec 32).toNat = 1 := rfl
    obtain ⟨next, hnext, hnextval⟩ := Word.gives_add? (a := row) (b := 1)
      (by simp only [rowLimit] at hlimit; omega)
    refine ⟨v.setRow (e.tableAt pos) next, ?_, hv.setRow (by rw [hnextval, hval, hone])⟩
    simp only [hrow, Option.bind_eq_bind, Option.bind_some]
    rw [hnext, Option.map_some]

theorem computes_skipCoveredWords? (rounds : Nat) {v : WordWalk} {w : Walk}
    (hsize : w.tuple.size = e.task.query.nrTables) (hv : v.Holds w) :
    WordWalk.Computes (e.skipCoveredWords? pos rounds v) (e.skipCovered pos rounds w) := by
  induction rounds generalizing v w with
  | zero => exact ⟨v, rfl, hv⟩
  | succ rounds ih =>
    obtain ⟨cardinality, hc, hcval⟩ := h.gives_cardinality (e.tableAt pos)
    obtain ⟨row, hrow, hval⟩ := gives_current hasc hpos hsize hv
    have hin : decide (row < cardinality) =
        decide (w.row (e.tableAt pos) < e.cardinality (e.tableAt pos)) := by
      rw [← hval, ← hcval]
      rfl
    rw [skipCovered_succ, ← hin, ← hval]
    split
    · rename_i hskip
      -- The loop moves on only from a row of the table, so the next row fits as well.
      have hlt : w.row (e.tableAt pos) < e.cardinality (e.tableAt pos) := by
        rw [Bool.and_eq_true, hin, decide_eq_true_eq] at hskip
        exact hskip.1
      obtain ⟨v', hv', hholds⟩ := computes_moveOnWords? h hasc hpos hsize hv hlt
      obtain ⟨v'', hv'', hholds'⟩ := ih ((e.moves_moveOn pos w).size.trans hsize) hholds
      refine ⟨v'', ?_, hholds'⟩
      simp only [skipCoveredWords?, hc, hrow, Option.bind_eq_bind, Option.bind_some]
      rw [if_pos hskip, hv', Option.bind_some, hv'']
    · rename_i hstay
      refine ⟨v, ?_, hv⟩
      simp only [skipCoveredWords?, hc, hrow, Option.bind_eq_bind, Option.bind_some]
      rw [if_neg hstay]

theorem computes_skipJoinedWords? (hsize : w.tuple.size = e.task.query.nrTables) (hv : v.Holds w) :
    WordWalk.Computes (e.skipJoinedWords? pos v) (e.skipJoined pos w) := by
  unfold skipJoinedWords? skipJoined
  split
  · exact ⟨v, rfl, hv⟩
  · exact computes_skipCoveredWords? h hasc hpos _ hsize hv

include hsize hv

theorem gives_seekStartWords? : Word.Gives (e.seekStartWords? pos v) (e.seekStart pos w) := by
  obtain ⟨cardinality, hc, hcval⟩ := h.gives_cardinality (e.tableAt pos)
  obtain ⟨row, hrow, hval⟩ := gives_current hasc hpos hsize hv
  obtain ⟨bound, hb, hbval⟩ := Word.gives_word? (n := 32) (h.lowerBound_lt pos)
  have hbounded : (Word.greatest row bound).toNat =
      max (w.row (e.tableAt pos)) (e.lowerBound pos) := by
    rw [Word.toNat_greatest, hval, hbval]
  simp only [seekStart]
  by_cases hzero : pos = 0
  · rw [if_pos hzero]
    -- Alignment may leave the rows, so it is done in 64 bits and bounded afterwards.
    obtain ⟨aligned, ha, haval⟩ := gives_alignWords? h (Word.greatest row bound)
    have hlt := cardinality.isLt
    obtain ⟨wide, hwide, hwideval⟩ := Word.gives_resize? (m := 64) (a := cardinality) (by omega)
    have hleast : (Word.least aligned wide).toNat =
        min (e.alignToShare (max (w.row (e.tableAt pos)) (e.lowerBound pos)))
          (e.cardinality (e.tableAt pos)) := by
      rw [Word.toNat_least, haval, hwideval, hcval, hbounded]
    obtain ⟨start, hstart, hstartval⟩ := Word.gives_resize? (m := 32)
      (a := Word.least aligned wide) (by rw [hleast]; omega)
    refine ⟨start, ?_, hstartval.trans hleast⟩
    simp only [seekStartWords?, hc, hrow, hb, Option.bind_eq_bind, Option.bind_some]
    rw [if_pos hzero, ha, Option.bind_some, hwide, Option.bind_some, hstart]
  · rw [if_neg hzero]
    refine ⟨Word.greatest row bound, ?_, hbounded⟩
    simp only [seekStartWords?, hc, hrow, hb, Option.bind_eq_bind, Option.bind_some]
    rw [if_neg hzero]

theorem computes_seekFoundWords? :
    WordWalk.Computes (e.seekFoundWords? pos v) (e.seekFound pos w) := by
  obtain ⟨cardinality, hc, hcval⟩ := h.gives_cardinality (e.tableAt pos)
  obtain ⟨row, hrow, hval⟩ := gives_seekStartWords? h hasc hpos hsize hv
  have hin : row < cardinality ↔ e.seekStart pos w < e.cardinality (e.tableAt pos) := by
    rw [BitVec.lt_def, hval, hcval]
  simp only [seekFoundWords?, seekFound, hc, hrow, hin, hval, Option.bind_eq_bind, Option.bind_some]
  split
  · cases hl : e.lookup? pos with
    | some l => exact computes_lookUpWords? h (hasc.ascends pos hpos l hl) hv _
    | none => exact ⟨_, rfl, hv.setRow hval⟩
  · exact ⟨_, rfl, hv.setRow hcval⟩

theorem computes_stepFoundWords? :
    WordWalk.Computes (e.stepFoundWords? pos v) (e.stepFound pos w) := by
  obtain ⟨cardinality, hc, hcval⟩ := h.gives_cardinality (e.tableAt pos)
  obtain ⟨row, hrow, hval⟩ := gives_current hasc hpos hsize hv
  have hlimit := h.cardinality_lt (e.tableAt pos)
  have hworkers : e.workers ≤ 64 := h.workers_le
  simp only [rowLimit] at hlimit
  simp only [stepFoundWords?, stepFound, hc, hrow, hval, Option.bind_eq_bind, Option.bind_some]
  cases hl : e.lookup? pos with
  | some l => exact computes_lookUpWords? h (hasc.ascends pos hpos l hl) hv _
  | none =>
    by_cases hzero : pos = 0
    · have hrowlt := row.isLt
      obtain ⟨wide, hr, hrval⟩ := Word.gives_resize? (m := 64) (a := row) (by omega)
      obtain ⟨workers, hn, hnval⟩ := Word.gives_word? (n := 64) (k := e.workers) (by omega)
      obtain ⟨next, hnext, hnextval⟩ := Word.gives_add? (a := wide) (b := workers) (by omega)
      obtain ⟨bound, hb, hbval⟩ := Word.gives_resize? (m := 64) (a := cardinality) (by omega)
      have hleast : (Word.least next bound).toNat =
          min (w.row (e.tableAt pos) + e.workers) (e.cardinality (e.tableAt pos)) := by
        rw [Word.toNat_least, hnextval, hbval, hrval, hnval, hval, hcval]
      obtain ⟨narrow, hnarrow, hnarrowval⟩ := Word.gives_resize? (m := 32)
        (a := Word.least next bound) (by rw [hleast]; omega)
      refine ⟨v.setRow (e.tableAt pos) narrow, ?_, ?_⟩
      · simp only [if_pos hzero, hr, hn, hnext, hb, hnarrow, Option.bind_some]
      · simpa only [if_pos hzero] using hv.setRow (hnarrowval.trans hleast)
    · simp only [if_neg hzero]
      refine ⟨_, rfl, hv.setRow ?_⟩
      -- The largest word is no row, so saturation does not show.
      have hle : e.cardinality (e.tableAt pos) ≤ 2 ^ 32 - 1 := hlimit.le
      rw [Word.toNat_least, Word.toNat_saturatingSucc (by omega), hval, hcval, Nat.min_assoc,
        Nat.min_eq_right hle]

/-- **`seek` computes in words what it computes in numbers.** -/
theorem computes_seekWords? : WordWalk.Computes (e.seekWords? pos v) (e.seek pos w) := by
  obtain ⟨v', hv', hholds⟩ := computes_seekFoundWords? h hasc hpos hsize hv
  unfold seekWords?
  rw [hv', Option.bind_some]
  exact computes_skipJoinedWords? h hasc hpos ((e.moves_seekFound pos w).size.trans hsize) hholds

/-- **`step` computes in words what it computes in numbers.** -/
theorem computes_stepWords? : WordWalk.Computes (e.stepWords? pos v) (e.step pos w) := by
  obtain ⟨v', hv', hholds⟩ := computes_stepFoundWords? h hasc hpos hsize hv
  unfold stepWords?
  rw [hv', Option.bind_some]
  exact computes_skipJoinedWords? h hasc hpos ((e.moves_stepFound pos w).size.trans hsize) hholds

end Computes

end Episode

end AdaptiveJoin
