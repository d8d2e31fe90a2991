import Mathlib.Data.List.Induction
import Mathlib.Order.Bounds.Basic
import AdaptiveJoin.Proofs.Progress.Offsets

/-!
# Sequences of publications

The offset of a share is the largest one that has been published for it, cut off at the number of
rows.  The finished mask is raised together with it, so that exactly one publication answers that it
has finished the share, and none does for a share that has no rows from the start
(`Progress.IsConsistent.hasTracked`).

`Progress.publications_tracked` says so of the progress that workers share from the start on, and
which rows its snapshots cover.
-/

namespace AdaptiveJoin

/-- An offset that is published for a share of a table. -/
structure Publication where
  table : Nat
  share : Nat
  offset : Nat
deriving DecidableEq, Repr, Inhabited

/-- A publication for a share that there is. -/
structure Publication.IsFor (c : Publication) (p : Progress) : Prop where
  table_lt : c.table < p.nrTables
  share_lt : c.share < p.workers

namespace Progress

/-- The progress after some publications. -/
def afterAll (p : Progress) (calls : List Publication) : Progress :=
  calls.foldl (fun p c => (p.publish c.table c.share c.offset).2) p

/-- What some publications answer in turn. -/
def answers (p : Progress) : List Publication → List (Publication × Bool)
  | [] => []
  | c :: rest =>
    (c, (p.publish c.table c.share c.offset).1) ::
      answers (p.publish c.table c.share c.offset).2 rest

/-- How many publications answer that they have finished a share. -/
def finishes (p : Progress) (calls : List Publication) (table share : Nat) : Nat :=
  (p.answers calls).countP fun (c, answer) => answer && (c.table == table && c.share == share)

/-- The offset of a share at first, and those published for it, cut off at the number of rows. -/
def published (p : Progress) (calls : List Publication) (table share : Nat) : Set Nat :=
  insert (p.offset table share)
    {offset | ∃ c ∈ calls, c.table = table ∧ c.share = share ∧
      min c.offset (p.cardinality table) = offset}

/-- What some publications make of a share: it comes to the largest of the published offsets, it is
finished at the end of the table, and one answer tells so unless it was finished at first. -/
structure HasTracked (p : Progress) (calls : List Publication) (table share : Nat) : Prop where
  isGreatest : IsGreatest (p.published calls table share) ((p.afterAll calls).offset table share)
  offset_le : (p.afterAll calls).offset table share ≤ p.cardinality table
  isShareFinished_iff : (p.afterAll calls).isShareFinished table share = true ↔
    (p.afterAll calls).offset table share = p.cardinality table
  finishes_eq : p.finishes calls table share =
    if p.isShareFinished table share = false ∧
      (p.afterAll calls).isShareFinished table share = true then 1 else 0

section Calls

variable {p : Progress} {c : Publication} {calls : List Publication} {table share : Nat}

/-! ### One more publication -/

/-- A publication answers whether it raises an unfinished share to the end of the table. -/
theorem publish_answer (p : Progress) (table share offset : Nat) :
    (p.publish table share offset).1 =
      (!p.isShareFinished table share && decide (p.cardinality table ≤ offset)) := by
  simp only [publish]
  by_cases h : p.cardinality table ≤ offset
  · rw [if_neg (by omega)]
    simp [h]
  · rw [if_pos (by omega)]
    simp [h]

theorem afterAll_concat (p : Progress) (calls : List Publication) (c : Publication) :
    p.afterAll (calls ++ [c]) = ((p.afterAll calls).publish c.table c.share c.offset).2 := by
  unfold afterAll
  rw [List.foldl_append, List.foldl_cons, List.foldl_nil]

theorem answers_concat (p : Progress) (calls : List Publication) (c : Publication) :
    p.answers (calls ++ [c]) =
      p.answers calls ++ [(c, ((p.afterAll calls).publish c.table c.share c.offset).1)] := by
  induction calls generalizing p with
  | nil => rfl
  | cons first rest ih =>
    rw [List.cons_append, answers, answers, List.cons_append, ih]
    rfl

theorem finishes_concat (p : Progress) (calls : List Publication) (c : Publication)
    (table share : Nat) :
    p.finishes (calls ++ [c]) table share = p.finishes calls table share +
      if ((p.afterAll calls).publish c.table c.share c.offset).1 = true ∧
        c.table = table ∧ c.share = share then 1 else 0 := by
  unfold finishes
  rw [answers_concat, List.countP_append, List.countP_singleton]
  simp only [Bool.and_eq_true, beq_iff_eq]

theorem published_concat (p : Progress) (calls : List Publication) (c : Publication)
    (table share : Nat) :
    p.published (calls ++ [c]) table share =
      if c.table = table ∧ c.share = share then
        insert (min c.offset (p.cardinality table)) (p.published calls table share)
      else p.published calls table share := by
  ext offset
  simp only [published, List.mem_append, List.mem_singleton]
  split
  · -- The last call is for the share, so its offset is published as well.
    rename_i heq
    simp only [Set.mem_insert_iff, Set.mem_ofPred_eq]
    constructor
    · rintro (rfl | ⟨c', hc' | rfl, htable, hshare, rfl⟩)
      · exact Or.inr (Or.inl rfl)
      · exact Or.inr (Or.inr ⟨c', hc', htable, hshare, rfl⟩)
      · exact Or.inl rfl
    · rintro (rfl | rfl | ⟨c', hc', htable, hshare, rfl⟩)
      · exact Or.inr ⟨c, Or.inr rfl, heq.1, heq.2, rfl⟩
      · exact Or.inl rfl
      · exact Or.inr ⟨c', Or.inl hc', htable, hshare, rfl⟩
  · -- The last call is for another share.
    rename_i hne
    simp only [Set.mem_insert_iff, Set.mem_ofPred_eq]
    constructor
    · rintro (rfl | ⟨c', hc' | rfl, htable, hshare, rfl⟩)
      · exact Or.inl rfl
      · exact Or.inr ⟨c', hc', htable, hshare, rfl⟩
      · exact absurd ⟨htable, hshare⟩ hne
    · exact Or.imp_right fun ⟨c', hc', hrest⟩ => ⟨c', Or.inl hc', hrest⟩

/-! ### All publications -/

@[simp]
theorem afterAll_workers (p : Progress) (calls : List Publication) :
    (p.afterAll calls).workers = p.workers := by
  induction calls using List.reverseRecOn with
  | nil => rfl
  | append_singleton calls c ih => rw [afterAll_concat, publish_workers, ih]

@[simp]
theorem afterAll_cardinalities (p : Progress) (calls : List Publication) :
    (p.afterAll calls).cardinalities = p.cardinalities := by
  induction calls using List.reverseRecOn with
  | nil => rfl
  | append_singleton calls c ih => rw [afterAll_concat, publish_cardinalities, ih]

@[simp]
theorem afterAll_nrTables (p : Progress) (calls : List Publication) :
    (p.afterAll calls).nrTables = p.nrTables := by
  rw [nrTables, afterAll_cardinalities, nrTables]

@[simp]
theorem afterAll_cardinality (p : Progress) (calls : List Publication) (table : Nat) :
    (p.afterAll calls).cardinality table = p.cardinality table := by
  rw [cardinality, afterAll_cardinalities, cardinality]

theorem isFor_afterAll (h : c.IsFor p) (calls : List Publication) :
    c.IsFor (p.afterAll calls) where
  table_lt := by
    rw [afterAll_nrTables]
    exact h.table_lt
  share_lt := by
    rw [afterAll_workers]
    exact h.share_lt

/-- **Publications keep progress consistent.** -/
theorem IsConsistent.afterAll (h : p.IsConsistent) (hcalls : ∀ c ∈ calls, c.IsFor p) :
    (p.afterAll calls).IsConsistent := by
  induction calls using List.reverseRecOn with
  | nil => exact h
  | append_singleton calls c ih =>
    have hc := isFor_afterAll (hcalls c (by simp)) calls
    rw [afterAll_concat]
    exact (ih fun c' hc' => hcalls c' (by simp [hc'])).publish hc.table_lt hc.share_lt c.offset

/-- No publications ever lower an offset. -/
theorem offset_le_afterAll (p : Progress) (calls : List Publication) (table share : Nat) :
    p.offset table share ≤ (p.afterAll calls).offset table share := by
  induction calls using List.reverseRecOn with
  | nil => exact Nat.le_refl _
  | append_singleton calls c ih =>
    rw [afterAll_concat]
    exact ih.trans (offset_le_publish _ _ _ _ _ _)

/-- **The offset of a share is the largest one published for it.** -/
theorem IsConsistent.isGreatest_afterAll (h : p.IsConsistent) (hcalls : ∀ c ∈ calls, c.IsFor p)
    (hs : share < p.workers) :
    IsGreatest (p.published calls table share) ((p.afterAll calls).offset table share) := by
  induction calls using List.reverseRecOn with
  | nil =>
    have hnone : p.published [] table share = {p.offset table share} := by simp [published]
    rw [hnone]
    exact isGreatest_singleton
  | append_singleton calls c ih =>
    have hc := isFor_afterAll (hcalls c (by simp)) calls
    have hbefore : ∀ c' ∈ calls, c'.IsFor p := fun c' hc' => hcalls c' (by simp [hc'])
    specialize ih hbefore
    have hoffset := (h.afterAll hbefore).offset_publish hc.table_lt hc.share_lt c.offset table
      ((afterAll_workers p calls).symm ▸ hs)
    rw [← afterAll_concat, afterAll_cardinality] at hoffset
    rw [hoffset, published_concat]
    by_cases heq : c.table = table ∧ c.share = share
    · obtain ⟨rfl, rfl⟩ := heq
      rw [if_pos ⟨rfl, rfl⟩, if_pos ⟨rfl, rfl⟩, max_comm]
      -- The greater of two offsets is greatest among all and the new one.
      exact ih.insert _
    · rw [if_neg heq, if_neg fun h => heq ⟨h.1.symm, h.2.symm⟩]
      exact ih

/-- A share that is finished stays so. -/
theorem IsConsistent.isShareFinished_afterAll (h : p.IsConsistent)
    (hcalls : ∀ c ∈ calls, c.IsFor p) (ht : table < p.nrTables) (hs : share < p.workers)
    (hfinished : p.isShareFinished table share = true) :
    (p.afterAll calls).isShareFinished table share = true := by
  have hafter := h.afterAll hcalls
  have hle := offset_le_afterAll p calls table share
  have hend := (h.isShareFinished_iff table ht share hs).1 hfinished
  rw [← afterAll_nrTables p calls] at ht
  rw [← afterAll_workers p calls] at hs
  have hle' := hafter.offset_le table ht share hs
  refine (hafter.isShareFinished_iff table ht share hs).2 ?_
  rw [afterAll_cardinality] at hle' ⊢
  omega

/-- **One publication answers that it has finished a share**, if any does so at all. -/
theorem IsConsistent.finishes_eq (h : p.IsConsistent) (hcalls : ∀ c ∈ calls, c.IsFor p)
    (ht : table < p.nrTables) (hs : share < p.workers) :
    p.finishes calls table share =
      if p.isShareFinished table share = false ∧
        (p.afterAll calls).isShareFinished table share = true then 1 else 0 := by
  induction calls using List.reverseRecOn with
  | nil =>
    show 0 = _
    rw [if_neg fun hboth => ?_]
    have hsame : (p.afterAll []).isShareFinished table share = p.isShareFinished table share := rfl
    rw [hsame, hboth.1] at hboth
    exact absurd hboth.2 Bool.false_ne_true
  | append_singleton calls c ih =>
    have hc := isFor_afterAll (hcalls c (by simp)) calls
    have hbefore : ∀ c' ∈ calls, c'.IsFor p := fun c' hc' => hcalls c' (by simp [hc'])
    have hkeeps := h.isShareFinished_afterAll hbefore ht hs
    have hfinished := (h.afterAll hbefore).isShareFinished_publish hc.table_lt hc.share_lt c.offset
      table ((afterAll_workers p calls).symm ▸ hs)
    rw [← afterAll_concat, afterAll_cardinality] at hfinished
    rw [finishes_concat, ih hbefore, hfinished, publish_answer, afterAll_cardinality]
    by_cases heq : c.table = table ∧ c.share = share
    · -- The publication answers yes exactly if it finishes the share.
      obtain ⟨rfl, rfl⟩ := heq
      cases hfirst : p.isShareFinished c.table c.share <;>
        cases hnow : (p.afterAll calls).isShareFinished c.table c.share <;>
          simp_all
    · have hne : ¬(table = c.table ∧ share = c.share ∧ p.cardinality c.table ≤ c.offset) :=
        fun h => heq ⟨h.1.symm, h.2.1.symm⟩
      simp [heq, hne]

/-- **Publications are tracked by the offset of their share, by its finished bit and by one
answer.** -/
theorem IsConsistent.hasTracked (h : p.IsConsistent) (hcalls : ∀ c ∈ calls, c.IsFor p)
    (ht : table < p.nrTables) (hs : share < p.workers) : p.HasTracked calls table share := by
  have hafter := h.afterAll hcalls
  have ht' : table < (p.afterAll calls).nrTables := by rwa [afterAll_nrTables]
  have hs' : share < (p.afterAll calls).workers := by rwa [afterAll_workers]
  refine ⟨h.isGreatest_afterAll hcalls hs, ?_, ?_, h.finishes_eq hcalls ht hs⟩
  · rw [← afterAll_cardinality p calls]
    exact hafter.offset_le table ht' share hs'
  · rw [← afterAll_cardinality p calls]
    exact hafter.isShareFinished_iff table ht' share hs'

end Calls

/-! ### Snapshots -/

/-- A snapshot of consistent progress covers the rows below the offset of their share. -/
theorem IsConsistent.covers_snapshot {p : Progress} (h : p.IsConsistent) (table row : Nat) :
    p.snapshot.covers table row = true ↔ row < p.offset table (row % p.workers) := by
  rw [snapshot, Snapshot.covers_ofOffsets h.workers_pos, decide_eq_true_eq]
  rfl

/-- All rows of some table are covered once the progress is finished. -/
theorem IsConsistent.exists_covered {p : Progress} (h : p.IsConsistent)
    (hfinished : p.isFinished = true) : ∃ table < p.nrTables, ∀ row < p.cardinality table,
      p.snapshot.covers table row = true := by
  obtain ⟨table, ht, hall⟩ := h.isFinished_iff.1 hfinished
  refine ⟨table, ht, fun row hrow => ?_⟩
  rw [h.covers_snapshot, hall _ (Nat.mod_lt _ h.workers_pos)]
  exact hrow

/-- **Offsets, finished shares and snapshots say the same.**  After any publications on a progress
from the start on, a share has come to the largest offset published for it, which more publications
never lower; it is finished exactly at the end of its table, and one publication has answered so
unless it had no rows.  A snapshot covers the rows below the offset of their share, and all rows of
some table once the progress is finished. -/
theorem publications_tracked (cardinalities : Array Nat) (workers : Nat)
    {calls : List Publication} (hcalls : ∀ c ∈ calls, c.IsFor (start cardinalities workers)) :
    let p := start cardinalities workers
    let p' := p.afterAll calls
    p.workers = max 1 (min workers maxWorkers) ∧
    (∀ table < p.nrTables, ∀ share < p.workers, p.HasTracked calls table share ∧
      ∀ later, p'.offset table share ≤ (p'.afterAll later).offset table share) ∧
    (∀ table < p.nrTables, ∀ row < p.cardinality table,
      (p'.snapshot.covers table row = true ↔ row < p'.offset table (row % p.workers))) ∧
    (p'.isFinished = true → ∃ table < p.nrTables, ∀ row < p.cardinality table,
      p'.snapshot.covers table row = true) := by
  intro p p'
  have hp : p.IsConsistent := isConsistent_start cardinalities workers
  have hp' : p'.IsConsistent := hp.afterAll hcalls
  refine ⟨rfl, fun table ht share hs => ⟨hp.hasTracked hcalls ht hs, fun later => ?_⟩,
    fun table _ row _ => ?_, fun hfinished => ?_⟩
  · exact offset_le_afterAll p' later table share
  · rw [hp'.covers_snapshot, afterAll_workers]
  · -- A finished progress has a table all of whose shares are done.
    obtain ⟨table, ht, hall⟩ := hp'.exists_covered hfinished
    rw [afterAll_nrTables] at ht
    rw [afterAll_cardinality] at hall
    exact ⟨table, ht, hall⟩

/-- Two workers and a table of one row, the second share of which is finished from the start. -/
theorem publications_tracked_sample :
    let p := start #[5, 1] 2
    let calls : List Publication := [⟨0, 1, 7⟩, ⟨0, 0, 3⟩, ⟨0, 1, 5⟩, ⟨1, 1, 1⟩, ⟨0, 0, 2⟩]
    (∀ c ∈ calls, c.IsFor p) ∧ p.HasTracked calls 0 1 ∧
      ((p.afterAll calls).snapshot.covers 0 4 = true ↔ 4 < (p.afterAll calls).offset 0 0) := by
  intro p calls
  have hcalls : ∀ c ∈ calls, c.IsFor p := by
    intro c hc
    simp only [calls, List.mem_cons, List.not_mem_nil, or_false] at hc
    rcases hc with rfl | rfl | rfl | rfl | rfl <;> exact ⟨by decide, by decide⟩
  obtain ⟨-, htracked, hcovers, -⟩ := publications_tracked #[5, 1] 2 hcalls
  exact ⟨hcalls, (htracked 0 (by decide) 1 (by decide)).1, hcovers 0 (by decide) 4 (by decide)⟩

end Progress

end AdaptiveJoin
