import AdaptiveJoin.Proofs.Index.Runs
import AdaptiveJoin.Proofs.Residue

/-!
# Lookups find the next occurrence

`firstAfter rows after` is the specification of all lookups: the first row of an ascending list
that lies after a given one.

* `Runs.nextRow?_eq` and `Runs.nextRowCached?_eq`: a lookup finds the next occurrence of its key,
  whatever the cursor is.
* `Runs.nextRowInPartition?_eq`: a lookup of one worker finds the next one of the occurrences that
  are dealt to the worker.
-/

namespace AdaptiveJoin

/-! ### The next row of a list -/

/-- The first of some rows that lies after a given one. -/
def firstAfter (rows : List Nat) (after : Int) : Option Nat :=
  rows.find? fun row => after < (row : Int)

theorem firstAfter_eq_some_iff {rows : List Nat} (h : rows.Pairwise (· < ·)) {after : Int}
    {row : Nat} : firstAfter rows after = some row ↔
      row ∈ rows ∧ after < row ∧ ∀ r ∈ rows, after < (r : Int) → row ≤ r := by
  induction rows with
  | nil => simp [firstAfter]
  | cons x xs ih =>
    have hx := (List.pairwise_cons.1 h).1
    unfold firstAfter
    rw [List.find?_cons]
    by_cases hafter : after < (x : Int)
    · -- The first row lies behind, and all others are greater.
      simp only [hafter, decide_true, Option.some.injEq]
      constructor
      · rintro rfl
        refine ⟨List.mem_cons_self, hafter, fun r hr _ => ?_⟩
        rcases List.mem_cons.1 hr with rfl | hr
        · exact Nat.le_refl _
        · exact (hx r hr).le
      · rintro ⟨hmem, -, hleast⟩
        have hle := hleast x List.mem_cons_self hafter
        rcases List.mem_cons.1 hmem with rfl | hmem
        · rfl
        · have := hx row hmem
          omega
    · -- The first row is skipped.
      simp only [hafter, decide_false]
      rw [← firstAfter, ih (List.pairwise_cons.1 h).2]
      constructor
      · rintro ⟨hmem, hlt, hleast⟩
        refine ⟨List.mem_cons_of_mem _ hmem, hlt, fun r hr hr' => ?_⟩
        rcases List.mem_cons.1 hr with rfl | hr
        · exact absurd hr' hafter
        · exact hleast r hr hr'
      · rintro ⟨hmem, hlt, hleast⟩
        rcases List.mem_cons.1 hmem with rfl | hmem
        · exact absurd hlt hafter
        · exact ⟨hmem, hlt, fun r hr => hleast r (List.mem_cons_of_mem _ hr)⟩

theorem firstAfter_eq_none_iff {rows : List Nat} {after : Int} :
    firstAfter rows after = none ↔ ∀ r ∈ rows, (r : Int) ≤ after := by
  simp [firstAfter]

/-- The entry at a place is the next row if the places before hold no later rows and it does. -/
theorem getElem?_eq_firstAfter {rows : List Nat} {after : Int} {i : Nat}
    (hle : i ≤ rows.length) (hbelow : ∀ j < i, ∀ r, rows[j]? = some r → (r : Int) ≤ after)
    (habove : ∀ r, rows[i]? = some r → after < (r : Int)) : rows[i]? = firstAfter rows after := by
  rcases Nat.lt_or_eq_of_le hle with hlt | rfl
  · have hget := List.getElem?_eq_getElem hlt
    rw [hget]
    refine (List.find?_eq_some_iff_getElem.2 ⟨?_, i, hlt, rfl, fun j hj => ?_⟩).symm
    · simpa using habove _ hget
    · have := hbelow j hj _ (List.getElem?_eq_getElem (by omega))
      simpa using this
  · rw [List.getElem?_eq_none (Nat.le_refl _)]
    refine (firstAfter_eq_none_iff.2 fun r hr => ?_).symm
    obtain ⟨j, hj, hjr⟩ := List.getElem_of_mem hr
    exact hbelow j hj r (by rw [List.getElem?_eq_getElem hj, hjr])

/-! ### Bisection -/

/-- Bisection finds the end of the part of an interval on which a predicate holds. -/
theorem bisect_spec {p : Nat → Bool} {lo hi : Nat} (hle : lo ≤ hi)
    (hmono : ∀ i j, i ≤ j → j < hi → p j = true → p i = true) :
    lo ≤ bisect p lo hi ∧ bisect p lo hi ≤ hi ∧
      (∀ i, lo ≤ i → i < bisect p lo hi → p i = true) ∧
        ∀ i, bisect p lo hi ≤ i → i < hi → p i = false := by
  fun_induction bisect p lo hi with
  | case1 lo hi hlt mid hp ih =>
    -- The middle satisfies the condition, and with it all places below.
    obtain ⟨hlo, hhi, hbelow, habove⟩ := ih (by omega) hmono
    refine ⟨by omega, hhi, fun i hi' hilt => ?_, habove⟩
    by_cases him : i ≤ mid
    · exact hmono i mid him (by omega) hp
    · exact hbelow i (by omega) hilt
  | case2 lo hi hlt mid hp ih =>
    obtain ⟨hlo, hhi, hbelow, habove⟩ :=
      ih (by omega) fun i j hij hj => hmono i j hij (by omega)
    refine ⟨hlo, by omega, hbelow, fun i hi' hilt => ?_⟩
    -- The middle violates the condition, and with it all places above.
    by_cases him : i < mid
    · exact habove i hi' him
    · by_contra hpi
      exact hp (hmono mid i (by omega) hilt (by simpa using hpi))
  | case3 lo hi hge => exact ⟨Nat.le_refl _, hle, fun i _ _ => by omega, fun i _ _ => by omega⟩

/-! ### Lookups -/

namespace Runs

variable {κ : Type} [BEq κ] [Hashable κ]

section Place

variable {ix : Runs κ} {offset : UInt32} {rows : List Nat}

/-- The place of the next row, from a place on before which no row comes after the given one. -/
theorem placeAfter_spec (hlen : ix.runLength offset = rows.length)
    (hrow : ∀ i, ix.runRow? offset i = rows[i]?) (hsorted : rows.Pairwise (· < ·)) (after : Int)
    {start : Nat} (hstart : start ≤ rows.length)
    (hbefore : ∀ j < start, ∀ r, rows[j]? = some r → (r : Int) ≤ after) :
    ix.placeAfter offset after start ≤ rows.length ∧
      (∀ j < ix.placeAfter offset after start, ∀ r, rows[j]? = some r → (r : Int) ≤ after) ∧
        ∀ j, ix.placeAfter offset after start ≤ j → ∀ r, rows[j]? = some r → after < (r : Int) := by
  have hmono (i j : Nat) (hij : i ≤ j) (hj : j < rows.length)
      (hp : decide (((ix.runRow? offset j).getD 0 : Int) ≤ after) = true) :
      decide (((ix.runRow? offset i).getD 0 : Int) ≤ after) = true := by
    rw [hrow, List.getElem?_eq_getElem (by omega)] at hp ⊢
    rcases Nat.lt_or_eq_of_le hij with hlt | rfl
    · have := List.pairwise_iff_getElem.1 hsorted i j (by omega) hj hlt
      simp only [Option.getD_some, decide_eq_true_eq] at hp ⊢
      omega
    · exact hp
  obtain ⟨hlo, hhi, hbelow, habove⟩ := bisect_spec hstart hmono
  unfold placeAfter
  rw [hlen]
  refine ⟨hhi, fun j hj r hr => ?_, fun j hj r hr => ?_⟩
  · -- Places before the start are known, the others are those of the bisection.
    by_cases hjs : j < start
    · exact hbefore j hjs r hr
    · have := hbelow j (by omega) hj
      rw [hrow, hr] at this
      simpa using this
  · obtain ⟨hlt, -⟩ := List.getElem?_eq_some_iff.1 hr
    have := habove j hj hlt
    rw [hrow, hr] at this
    simpa using this

/-- The place that a cursor leads to is as good as the one found without. -/
theorem placeAfterCached_spec (hlen : ix.runLength offset = rows.length)
    (hrow : ∀ i, ix.runRow? offset i = rows[i]?) (hsorted : rows.Pairwise (· < ·)) (after : Int)
    (cursor : Cursor) :
    rows[ix.placeAfterCached offset after cursor]? = firstAfter rows after := by
  -- The bisection may start at any place whose row does not come after the given one.
  have hfrom (start : Nat) (hstart : start ≤ rows.length)
      (hbefore : ∀ j < start, ∀ r, rows[j]? = some r → (r : Int) ≤ after) :
      rows[ix.placeAfter offset after start]? = firstAfter rows after := by
    obtain ⟨hle, hbelow, habove⟩ := placeAfter_spec hlen hrow hsorted after hstart hbefore
    exact getElem?_eq_firstAfter hle hbelow (habove _ (Nat.le_refl _))
  have hzero := hfrom 0 (by omega) fun j hj => by omega
  rw [placeAfterCached]
  split
  · rename_i h
    obtain ⟨hplace, hle⟩ :
        ∃ h : cursor.place < rows.length, (rows[cursor.place] : Int) ≤ after := by
      have hhere := h.2
      rw [hrow] at hhere
      cases hget : rows[cursor.place]? with
      | none => simp [hget] at hhere
      | some here =>
        obtain ⟨hlt, rfl⟩ := List.getElem?_eq_some_iff.1 hget
        exact ⟨hlt, by simpa [hget] using hhere⟩
    have hbefore (j : Nat) (hj : j ≤ cursor.place) (r : Nat) (hr : rows[j]? = some r) :
        (r : Int) ≤ after := by
      obtain ⟨hlt, rfl⟩ := List.getElem?_eq_some_iff.1 hr
      rcases Nat.lt_or_eq_of_le hj with hj | rfl
      · have := List.pairwise_iff_getElem.1 hsorted j cursor.place hlt hplace hj
        omega
      · omega
    have hcached := hfrom cursor.place (by omega) fun j hj => hbefore j hj.le
    split
    · rename_i row hnext
      rw [hrow] at hnext
      split
      · rename_i hafter
        refine getElem?_eq_firstAfter (by omega) (fun j hj => hbefore j (by omega)) fun r hr => ?_
        rw [hnext, Option.some.injEq] at hr
        omega
      · exact hcached
    · exact hcached
  · exact hzero

end Place

variable {ix : Runs κ} {keys : Array (Option κ)}

/-- **A lookup finds the next occurrence of its key.** -/
theorem nextRow?_eq (h : ix.Represents keys) (key : κ) (after : Int) :
    ix.nextRow? key after = firstAfter (occurrences keys key keys.size) after := by
  unfold nextRow?
  split
  · rename_i hnone
    rw [h.absent key hnone]
    rfl
  · rename_i offset ho
    obtain ⟨hle, hbelow, habove⟩ := placeAfter_spec (h.runLength key offset ho)
      (h.runRow key offset ho) (pairwise_occurrences keys key keys.size) after
      (Nat.zero_le _) fun j hj => by omega
    rw [h.runRow key offset ho]
    exact getElem?_eq_firstAfter hle hbelow (habove _ (Nat.le_refl _))

/-- **The cursor never changes an answer.** -/
theorem nextRowCached?_eq (h : ix.Represents keys) (key : κ) (after : Int) (cursor : Cursor) :
    (ix.nextRowCached? key after cursor).1 =
      firstAfter (occurrences keys key keys.size) after := by
  unfold nextRowCached?
  split
  · rename_i hnone
    rw [h.absent key hnone]
    rfl
  · rename_i offset ho
    -- Wherever the cursor starts the search, it ends at the first row behind `after`.
    have hplace := placeAfterCached_spec (h.runLength key offset ho) (h.runRow key offset ho)
      (pairwise_occurrences keys key keys.size) after cursor
    dsimp only
    rw [h.runRow key offset ho, ← hplace]
    split
    · rename_i row hrow
      exact hrow.symm
    · rename_i hrow
      exact hrow.symm

/-! ### Lookups of one worker -/

/-- The rows at the places that are dealt to a worker. -/
def dealt (rows : List Nat) (worker workers : Nat) : List Nat :=
  (rows.zipIdx.filter fun entry => entry.2 % workers == worker).map Prod.fst

theorem mem_dealt {rows : List Nat} {worker workers row : Nat} :
    row ∈ dealt rows worker workers ↔ ∃ i, rows[i]? = some row ∧ i % workers = worker := by
  simp only [dealt, List.mem_map, List.mem_filter, beq_iff_eq, Prod.exists, exists_and_right,
    exists_eq_right, List.mem_zipIdx_iff_getElem?]

theorem pairwise_dealt {rows : List Nat} (h : rows.Pairwise (· < ·)) (worker workers : Nat) :
    (dealt rows worker workers).Pairwise (· < ·) := by
  have hsub : (dealt rows worker workers).Sublist rows := by
    have := (List.filter_sublist (l := rows.zipIdx)
      (p := fun entry => entry.2 % workers == worker)).map Prod.fst
    rwa [List.zipIdx_map_fst] at this
  exact h.sublist hsub

/-- **A lookup of one worker finds the next one of the occurrences dealt to the worker.** -/
theorem nextRowInPartition?_eq (h : ix.Represents keys) (key : κ) (after : Int)
    {worker workers : Nat} (hw : worker < workers) :
    ix.nextRowInPartition? key after worker workers =
      firstAfter (dealt (occurrences keys key keys.size) worker workers) after := by
  have hsorted := pairwise_occurrences keys key keys.size
  unfold nextRowInPartition?
  rw [if_neg (by omega)]
  split
  · rename_i hnone
    rw [h.absent key hnone]
    rfl
  · rename_i offset ho
    obtain ⟨-, hbelow, habove⟩ := placeAfter_spec (h.runLength key offset ho)
      (h.runRow key offset ho) hsorted after (Nat.zero_le _) fun j hj => by omega
    dsimp only
    generalize hi : ix.placeAfter offset after 0 = i at hbelow habove
    rw [h.runRow key offset ho]
    -- The rows after the given one stand at the places from `i` on.
    have hfrom {j r : Nat} (hr : (occurrences keys key keys.size)[j]? = some r)
        (hafter : after < (r : Int)) : i ≤ j := by
      by_contra hlt
      have := hbelow j (by omega) r hr
      omega
    cases hrow :
      (occurrences keys key keys.size)[i + (worker + workers - i % workers) % workers]? with
    | some row =>
      refine ((firstAfter_eq_some_iff (pairwise_dealt hsorted _ _)).2 ⟨?_, ?_, ?_⟩).symm
      · exact mem_dealt.2 ⟨_, hrow, nextOfResidue_mod hw⟩
      · exact habove _ (by omega) row hrow
      · intro r hr hafter
        obtain ⟨j, hj, hmod⟩ := mem_dealt.1 hr
        have hle := nextOfResidue_le hw (hfrom hj hafter) hmod
        obtain ⟨hlt, rfl⟩ := List.getElem?_eq_some_iff.1 hj
        obtain ⟨hlt', rfl⟩ := List.getElem?_eq_some_iff.1 hrow
        rcases Nat.lt_or_eq_of_le hle with hlt'' | heq
        · exact (List.pairwise_iff_getElem.1 hsorted _ _ hlt' hlt hlt'').le
        · simp only [heq, Nat.le_refl]
    | none =>
      refine (firstAfter_eq_none_iff.2 fun r hr => ?_).symm
      obtain ⟨j, hj, hmod⟩ := mem_dealt.1 hr
      by_contra hafter
      have hle := nextOfResidue_le hw (hfrom hj (by omega)) hmod
      obtain ⟨hlt, -⟩ := List.getElem?_eq_some_iff.1 hj
      rw [List.getElem?_eq_none_iff] at hrow
      omega

end Runs

end AdaptiveJoin
