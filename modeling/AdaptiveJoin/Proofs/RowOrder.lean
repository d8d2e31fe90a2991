import Mathlib.Data.List.Lex
import Mathlib.Data.List.Nodup
import Mathlib.Algebra.BigOperators.Group.List.Basic
import AdaptiveJoin.Order

/-!
# The lexicographic order of rows

The nested loops of an order run through the tuples in the lexicographic order of their rows, the
outermost table first.  `compareLex` decides the order `<` of lists (`compareLex_eq_lt_iff`), and
the order of two tuples is told by the first position at which they differ (`rowsOf_lt_iff`).

`JoinOrder.IsPermutation` says that an order lists every table once, so that positions and tables
determine each other.
-/

namespace AdaptiveJoin

/-! ### `compareLex` -/

theorem compareLex_eq_lt_iff {as bs : List Nat} : compareLex as bs = .lt ↔ as < bs := by
  induction as generalizing bs with
  | nil => cases bs <;> simp [compareLex]
  | cons a as ih =>
    cases bs with
    | nil => simp [compareLex]
    | cons b bs =>
      rw [compareLex, List.cons_lt_cons_iff, Ordering.then_eq_lt, ih, Nat.compare_eq_lt,
        Nat.compare_eq_eq]

theorem compareLex_swap (as bs : List Nat) : (compareLex as bs).swap = compareLex bs as := by
  induction as generalizing bs with
  | nil => cases bs <;> rfl
  | cons a as ih =>
    cases bs with
    | nil => rfl
    | cons b bs => rw [compareLex, compareLex, Ordering.swap_then, ih, Nat.compare_swap]

theorem compareLex_eq_gt_iff {as bs : List Nat} : compareLex as bs = .gt ↔ bs < as := by
  rw [← compareLex_eq_lt_iff, ← compareLex_swap as bs]
  cases compareLex as bs <;> simp

/-! ### Rows -/

/-- The row of a table after it has been set. -/
theorem Tuple.row_setIfInBounds (tuple : Tuple) (table row other : Nat) :
    Tuple.row (tuple.setIfInBounds table row) other =
      if table = other ∧ other < tuple.size then row else tuple.row other := by
  rw [Tuple.row, Array.getElem?_setIfInBounds]
  by_cases heq : table = other
  · subst heq
    by_cases hlt : table < tuple.size <;> simp [hlt, Tuple.row]
  · simp [heq, Tuple.row]

/-! ### Orders that list every table once -/

namespace JoinOrder

/-- The order lists every table below `n` once and no other table. -/
def IsPermutation (o : JoinOrder) (n : Nat) : Prop := o.toList.Perm (List.range n)

instance (o : JoinOrder) (n : Nat) : Decidable (o.IsPermutation n) :=
  inferInstanceAs (Decidable (o.toList.Perm (List.range n)))

variable {o : JoinOrder} {n : Nat}

theorem IsPermutation.size_eq (h : o.IsPermutation n) : o.size = n := by
  have := h.length_eq
  rwa [List.length_range, toList, Array.length_toList] at this

theorem length_toList (o : JoinOrder) : o.toList.length = o.size := rfl

theorem tableAt_eq_getElem {p : Nat} (h : p < o.toList.length) : o.tableAt p = o.toList[p] := by
  have hp : p < o.tables.size := h
  simp [tableAt, toList, hp]

theorem IsPermutation.isEmpty_eq_false (h : o.IsPermutation n) (hn : 0 < n) :
    o.isEmpty = false := by
  have hsize : o.tables.size = n := h.size_eq
  unfold isEmpty
  unfold Array.isEmpty
  rw [decide_eq_false_iff_not]
  omega

theorem IsPermutation.mem_iff (h : o.IsPermutation n) {table : Nat} :
    table ∈ o.toList ↔ table < n := by
  rw [List.Perm.mem_iff h, List.mem_range]

theorem IsPermutation.nodup (h : o.IsPermutation n) : o.toList.Nodup :=
  h.nodup_iff.2 List.nodup_range

theorem IsPermutation.tableAt_lt (h : o.IsPermutation n) {p : Nat} (hp : p < n) :
    o.tableAt p < n := by
  rw [tableAt_eq_getElem (by rwa [length_toList, h.size_eq])]
  exact h.mem_iff.1 (List.getElem_mem _)

/-- Different positions hold different tables. -/
theorem IsPermutation.tableAt_inj (h : o.IsPermutation n) {p p' : Nat} (hp : p < n) (hp' : p' < n)
    (heq : o.tableAt p = o.tableAt p') : p = p' := by
  rw [← h.size_eq, ← length_toList] at hp hp'
  rw [tableAt_eq_getElem hp, tableAt_eq_getElem hp'] at heq
  exact (h.nodup.getElem_inj_iff).1 heq

/-- Every table stands at some position. -/
theorem IsPermutation.exists_tableAt (h : o.IsPermutation n) {table : Nat} (ht : table < n) :
    ∃ p < n, o.tableAt p = table := by
  obtain ⟨p, hp, hpt⟩ := List.getElem_of_mem (h.mem_iff.2 ht)
  have hsize : p < o.size := by simpa [toList, size] using hp
  exact ⟨p, h.size_eq ▸ hsize, by rw [tableAt_eq_getElem hp, hpt]⟩

/-! ### Tuples in the order of the loops -/

/-- The rows of a tuple, the outermost table first. -/
def rowsOf (o : JoinOrder) (tuple : Tuple) : List Nat := o.toList.map tuple.row

/-- Two tuples have the same rows at the first `k` positions. -/
def Agree (o : JoinOrder) (k : Nat) (a b : Tuple) : Prop :=
  ∀ p < k, a.row (o.tableAt p) = b.row (o.tableAt p)

theorem length_rowsOf (o : JoinOrder) (tuple : Tuple) : (o.rowsOf tuple).length = o.size := by
  simp [rowsOf, toList, size]

theorem getElem_rowsOf {tuple : Tuple} {p : Nat} (h : p < (o.rowsOf tuple).length) :
    (o.rowsOf tuple)[p] = tuple.row (o.tableAt p) := by
  have hp : p < o.toList.length := by rwa [length_rowsOf] at h
  rw [tableAt_eq_getElem hp]
  simp [rowsOf]

/-- A tuple precedes another one iff it has the smaller row where they first differ. -/
theorem rowsOf_lt_iff {a b : Tuple} :
    o.rowsOf a < o.rowsOf b ↔
      ∃ k < o.size, o.Agree k a b ∧ a.row (o.tableAt k) < b.row (o.tableAt k) := by
  rw [List.lt_iff_exists]
  constructor
  · rintro (⟨-, hlen⟩ | ⟨k, ha, hb, hagree, hlt⟩)
    · rw [length_rowsOf, length_rowsOf] at hlen
      omega
    · refine ⟨k, by rwa [length_rowsOf] at ha, fun p hp => ?_, ?_⟩
      · have := hagree p hp
        rwa [getElem_rowsOf, getElem_rowsOf] at this
      · rwa [getElem_rowsOf, getElem_rowsOf] at hlt
  · rintro ⟨k, hk, hagree, hlt⟩
    refine Or.inr ⟨k, by rwa [length_rowsOf], by rwa [length_rowsOf], fun p hp => ?_, ?_⟩
    · rw [getElem_rowsOf, getElem_rowsOf]
      exact hagree p hp
    · rw [getElem_rowsOf, getElem_rowsOf]
      exact hlt

/-- The first rows of two tuples are ordered where the tuples first differ. -/
theorem take_rowsOf_lt_iff {a b : Tuple} {n : Nat} :
    (o.rowsOf a).take n < (o.rowsOf b).take n ↔
      ∃ k < n, k < o.size ∧ o.Agree k a b ∧ a.row (o.tableAt k) < b.row (o.tableAt k) := by
  rw [List.lt_iff_exists]
  simp only [List.length_take, length_rowsOf, List.getElem_take]
  constructor
  · rintro (⟨-, hlen⟩ | ⟨k, ha, hb, hagree, hlt⟩)
    · omega
    · refine ⟨k, by omega, by omega, fun p hp => ?_, ?_⟩
      · have := hagree p hp
        rwa [getElem_rowsOf, getElem_rowsOf] at this
      · rwa [getElem_rowsOf, getElem_rowsOf] at hlt
  · rintro ⟨k, hk, hks, hagree, hlt⟩
    refine Or.inr ⟨k, by omega, by omega, fun p hp => ?_, ?_⟩
    · rw [getElem_rowsOf, getElem_rowsOf]
      exact hagree p hp
    · rw [getElem_rowsOf, getElem_rowsOf]
      exact hlt

theorem Agree.symm {k : Nat} {a b : Tuple} (h : o.Agree k a b) : o.Agree k b a :=
  fun p hp => (h p hp).symm

theorem Agree.trans {k : Nat} {a b c : Tuple} (h : o.Agree k a b) (h' : o.Agree k b c) :
    o.Agree k a c :=
  fun p hp => (h p hp).trans (h' p hp)

theorem Agree.mono {k k' : Nat} {a b : Tuple} (h : o.Agree k a b) (hk : k' ≤ k) :
    o.Agree k' a b :=
  fun p hp => h p (by omega)

theorem agree_zero (o : JoinOrder) (a b : Tuple) : o.Agree 0 a b := fun _ hp => by omega

/-- Two tuples that do not differ before position `k` are ordered there, if at all. -/
theorem row_le_of_rowsOf_le {a b : Tuple} {k : Nat} (hle : o.rowsOf a ≤ o.rowsOf b)
    (hk : k < o.size) (h : o.Agree k a b) : a.row (o.tableAt k) ≤ b.row (o.tableAt k) := by
  by_contra hgt
  exact hle.not_gt (rowsOf_lt_iff.2 ⟨k, hk, h.symm, by omega⟩)

theorem rowsOf_le_of_forall {a b : Tuple}
    (h : ∀ k < o.size, o.Agree k a b → a.row (o.tableAt k) ≤ b.row (o.tableAt k)) :
    o.rowsOf a ≤ o.rowsOf b := by
  apply not_lt.1
  intro hlt
  obtain ⟨k, hk, hagree, hlt⟩ := rowsOf_lt_iff.1 hlt
  have := h k hk hagree.symm
  omega

theorem rowsOf_eq_iff {a b : Tuple} : o.rowsOf a = o.rowsOf b ↔ o.Agree o.size a b := by
  constructor
  · intro h p hp
    have ha : p < (o.rowsOf a).length := by rwa [length_rowsOf]
    have := getElem_rowsOf ha
    rw [← this, List.getElem_of_eq h, getElem_rowsOf]
  · intro h
    refine le_antisymm (rowsOf_le_of_forall fun k hk _ => (h k hk).le)
      (rowsOf_le_of_forall fun k hk _ => (h k hk).ge)

/-- Two tuples that differ before position `k` keep their order whatever follows. -/
theorem rowsOf_lt_of_agree {a a' b b' : Tuple} {k : Nat} (hle : o.rowsOf a ≤ o.rowsOf b)
    (hk : k ≤ o.size) (hne : ¬o.Agree k a b) (ha : o.Agree k a a') (hb : o.Agree k b b') :
    o.rowsOf a' < o.rowsOf b' := by
  have hlt : o.rowsOf a < o.rowsOf b :=
    lt_of_le_of_ne hle fun heq => hne ((rowsOf_eq_iff.1 heq).mono hk)
  obtain ⟨j, hj, hagree, hrow⟩ := rowsOf_lt_iff.1 hlt
  have hjk : j < k := by
    by_contra hge
    exact hne (hagree.mono (by omega))
  refine rowsOf_lt_iff.2 ⟨j, hj, ?_, ?_⟩
  · exact ((ha.mono hjk.le).symm.trans hagree).trans (hb.mono hjk.le)
  · rw [← ha j hjk, ← hb j hjk]
    exact hrow

/-- Tuples with the same rows everywhere are the same tuple. -/
theorem IsPermutation.eq_of_agree (h : o.IsPermutation n) {a b : Tuple} (ha : a.size = n)
    (hb : b.size = n) (hagree : o.Agree n a b) : a = b := by
  apply Array.ext (ha.trans hb.symm)
  intro table hta htb
  obtain ⟨p, hp, rfl⟩ := h.exists_tableAt (ha ▸ hta)
  have := hagree p hp
  simpa [Tuple.row, hta, htb] using this

end JoinOrder

/-! ### The place of rows in the order of the loops -/

/-- The number of rows within some bounds that precede given ones: the rows as digits of a number,
each bound being the largest digit at its position. -/
def rank : List Nat → List Nat → Nat
  | _ :: bounds, row :: rows => row * (bounds.map (· + 1)).prod + rank bounds rows
  | _, _ => 0

theorem rank_lt {bounds rows : List Nat} (h : List.Forall₂ (· ≤ ·) rows bounds) :
    rank bounds rows < (bounds.map (· + 1)).prod := by
  induction h with
  | nil => exact Nat.one_pos
  | @cons _ _ _ bounds hle _ ih =>
    unfold rank
    rw [List.map_cons, List.prod_cons, Nat.add_mul, Nat.one_mul]
    have := Nat.mul_le_mul_right (bounds.map (· + 1)).prod hle
    omega

theorem rank_lt_rank {bounds rows rows' : List Nat} (h : List.Forall₂ (· ≤ ·) rows bounds)
    (h' : List.Forall₂ (· ≤ ·) rows' bounds) (hlt : rows < rows') :
    rank bounds rows < rank bounds rows' := by
  induction h generalizing rows' with
  | nil =>
    cases h'
    exact absurd hlt (lt_irrefl _)
  | @cons row _ rows bounds hle hrows ih =>
    cases h' with
    | @cons row' _ rows' _ hle' hrows' =>
      rw [rank, rank]
      rcases List.cons_lt_cons_iff.1 hlt with hrow | ⟨rfl, hrest⟩
      · have hrank := rank_lt hrows
        have := Nat.mul_le_mul_right (bounds.map (· + 1)).prod (Nat.succ_le_of_lt hrow)
        rw [Nat.succ_mul] at this
        omega
      · have := ih hrows' hrest
        omega

end AdaptiveJoin
