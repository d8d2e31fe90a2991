import Mathlib.Data.Nat.Bitwise
import AdaptiveJoin.TableSet

/-!
# Members of table sets

A table below 64 is a member of a set iff its bit is set (`contains_eq_testBit`), and no larger
table ever is (`contains_of_le`).  From this every operation is described by its members.
-/

namespace AdaptiveJoin

namespace TableSet

/-- The bit of a table below the limit is a power of two. -/
theorem toNat_bit {table : Nat} (h : table < maxTables) : (bit table).toNat = 2 ^ table := by
  have hlt : table < 64 := h
  unfold bit
  rw [if_pos h, UInt64.toNat_shiftLeft, UInt64.toNat_ofNat']
  have htable : table % 2 ^ 64 % 64 = table := by omega
  rw [htable, UInt64.toNat_one, Nat.one_shiftLeft]
  exact Nat.mod_eq_of_lt (Nat.pow_lt_pow_right (by omega) hlt)

theorem bit_of_le {table : Nat} (h : maxTables ≤ table) : bit table = 0 := by
  unfold bit
  rw [if_neg (by omega)]

/-- A number is not zero iff its natural number is not. -/
theorem ne_zero_iff_toNat (word : UInt64) : (word != 0) = decide (word.toNat ≠ 0) := by
  by_cases h : word = 0
  · simp [h]
  · have : word.toNat ≠ 0 := fun h' => h (UInt64.toNat_inj.1 h')
    simp [h, this]

/-- A table below the limit is a member iff its bit is set. -/
theorem contains_eq_testBit (s : TableSet) {table : Nat} (h : table < maxTables) :
    s.contains table = s.mask.toNat.testBit table := by
  unfold contains
  rw [ne_zero_iff_toNat, UInt64.toNat_and, toNat_bit h, Nat.and_two_pow]
  cases s.mask.toNat.testBit table <;> simp

theorem contains_of_le (s : TableSet) {table : Nat} (h : maxTables ≤ table) :
    s.contains table = false := by
  simp [contains, bit_of_le h]

@[simp]
theorem contains_empty (table : Nat) : (∅ : TableSet).contains table = false := by
  show ((0 : UInt64) &&& bit table != 0) = false
  simp

/-- A bit of `bit table` is set iff it is the bit of the table. -/
theorem testBit_bit (table other : Nat) :
    (bit table).toNat.testBit other = decide (table < maxTables ∧ table = other) := by
  by_cases h : table < maxTables
  · rw [toNat_bit h, Nat.testBit_two_pow]
    simp [h]
  · rw [bit_of_le (by omega)]
    simp [h]

theorem contains_insert (s : TableSet) (table other : Nat) :
    (s.insert table).contains other =
      (s.contains other || decide (table < maxTables ∧ table = other)) := by
  by_cases h : other < maxTables
  · rw [contains_eq_testBit _ h, contains_eq_testBit _ h, insert, UInt64.toNat_or,
      Nat.testBit_or, testBit_bit]
  · rw [contains_of_le _ (by omega), contains_of_le _ (by omega)]
    have : ¬(table < maxTables ∧ table = other) := by omega
    simp [this]

theorem contains_insert_iff {s : TableSet} {table other : Nat} (h : table < maxTables) :
    (s.insert table).contains other = true ↔ other = table ∨ s.contains other = true := by
  rw [contains_insert]
  simp only [h, true_and, Bool.or_eq_true, decide_eq_true_eq]
  exact ⟨fun hc => hc.elim Or.inr fun e => Or.inl e.symm,
    fun hc => hc.elim (fun e => Or.inr e.symm) Or.inl⟩

/-- The members of a set of a list are the members of the list below the limit. -/
theorem contains_foldl_insert (s : TableSet) (tables : List Nat) (table : Nat) :
    (tables.foldl insert s).contains table =
      (s.contains table || decide (table < maxTables ∧ table ∈ tables)) := by
  induction tables generalizing s with
  | nil => simp
  | cons t ts ih =>
    rw [List.foldl_cons, ih, contains_insert, Bool.or_assoc]
    congr 1
    rw [← Bool.decide_or, decide_eq_decide, List.mem_cons]
    constructor
    · rintro (⟨ht, rfl⟩ | ⟨ht, hmem⟩)
      · exact ⟨ht, Or.inl rfl⟩
      · exact ⟨ht, Or.inr hmem⟩
    · rintro ⟨ht, rfl | hmem⟩
      · exact Or.inl ⟨ht, rfl⟩
      · exact Or.inr ⟨ht, hmem⟩

theorem contains_ofList (tables : List Nat) (table : Nat) :
    (ofList tables).contains table = decide (table < maxTables ∧ table ∈ tables) := by
  have h : (empty : TableSet).contains table = false := contains_empty table
  unfold ofList
  rw [contains_foldl_insert, h, Bool.false_or]

theorem contains_ofList_iff {tables : List Nat} (h : ∀ t ∈ tables, t < maxTables) {table : Nat} :
    (ofList tables).contains table = true ↔ table ∈ tables := by
  rw [contains_ofList, decide_eq_true_eq]
  exact ⟨And.right, fun hmem => ⟨h table hmem, hmem⟩⟩

/-! ### Comparing sets -/

/-- Sets with the same members are equal. -/
theorem eq_iff_contains {s t : TableSet} :
    s = t ↔ ∀ table, s.contains table = t.contains table := by
  constructor
  · rintro rfl table
    rfl
  · intro h
    have hmask : s.mask = t.mask := by
      refine UInt64.toNat_inj.1 (Nat.eq_of_testBit_eq fun i => ?_)
      by_cases hi : i < maxTables
      · rw [← contains_eq_testBit s hi, ← contains_eq_testBit t hi, h i]
      · have hpow : 2 ^ 64 ≤ 2 ^ i := Nat.pow_le_pow_right (by omega) (Nat.not_lt.1 hi)
        rw [Nat.testBit_eq_false_of_lt (lt_of_lt_of_le s.mask.toNat_lt hpow),
          Nat.testBit_eq_false_of_lt (lt_of_lt_of_le t.mask.toNat_lt hpow)]
    cases s
    cases t
    exact congrArg TableSet.mk hmask

theorem contains_and (a b : UInt64) (table : Nat) :
    contains ⟨a &&& b⟩ table = (contains ⟨a⟩ table && contains ⟨b⟩ table) := by
  by_cases h : table < maxTables
  · rw [contains_eq_testBit _ h, contains_eq_testBit _ h, contains_eq_testBit _ h,
      UInt64.toNat_and, Nat.testBit_and]
  · rw [contains_of_le _ (by omega), contains_of_le _ (by omega)]
    rfl

theorem contains_not (a : UInt64) {table : Nat} (h : table < maxTables) :
    contains ⟨~~~a⟩ table = !contains ⟨a⟩ table := by
  have h64 : table < 64 := h
  rw [contains_eq_testBit _ h, contains_eq_testBit _ h, UInt64.toNat_not,
    show UInt64.size - 1 - a.toNat = 2 ^ 64 - (a.toNat + 1) by rw [UInt64.size]; omega,
    Nat.testBit_two_pow_sub_succ a.toNat_lt]
  simp [h64]

/-- A set is empty iff it has no members. -/
theorem isEmpty_iff {s : TableSet} : s.isEmpty = true ↔ ∀ table, s.contains table = false := by
  have hempty : s.isEmpty = true ↔ s = ∅ := by
    unfold isEmpty
    rw [beq_iff_eq]
    exact ⟨fun h => by cases s; exact congrArg TableSet.mk h, fun h => h ▸ rfl⟩
  rw [hempty, eq_iff_contains]
  simp only [contains_empty]

/-- A set is a subset of another iff all its members are members of the other. -/
theorem isSubset_iff {s t : TableSet} :
    s.isSubset t = true ↔ ∀ table, s.contains table = true → t.contains table = true := by
  have hempty : s.isSubset t = (⟨s.mask &&& ~~~t.mask⟩ : TableSet).isEmpty := rfl
  rw [hempty, isEmpty_iff]
  apply forall_congr'
  intro table
  rw [contains_and]
  by_cases h : table < maxTables
  · rw [contains_not _ h]
    cases contains ⟨s.mask⟩ table <;> cases contains ⟨t.mask⟩ table <;> simp
  · rw [contains_of_le _ (by omega), contains_of_le _ (by omega)]
    simp

/-- Sets intersect iff they have a common member. -/
theorem intersects_iff {s t : TableSet} : s.intersects t = true ↔
    ∃ table, s.contains table = true ∧ t.contains table = true := by
  have hempty : s.intersects t = !(⟨s.mask &&& t.mask⟩ : TableSet).isEmpty := rfl
  rw [hempty, Bool.not_eq_true', ← Bool.not_eq_true, isEmpty_iff, not_forall]
  refine exists_congr fun table => ?_
  rw [contains_and, Bool.not_eq_false, Bool.and_eq_true]

theorem contains_union (s t : TableSet) (table : Nat) :
    (s.union t).contains table = (s.contains table || t.contains table) := by
  by_cases h : table < maxTables
  · rw [contains_eq_testBit _ h, contains_eq_testBit _ h, contains_eq_testBit _ h, union,
      UInt64.toNat_or, Nat.testBit_or]
  · rw [contains_of_le _ (by omega), contains_of_le _ (by omega), contains_of_le _ (by omega)]
    rfl

theorem contains_erase (s : TableSet) (table other : Nat) :
    (s.erase table).contains other = (s.contains other && decide (table ≠ other)) := by
  by_cases h : other < maxTables
  · have hbit : contains ⟨bit table⟩ other = decide (table = other) := by
      rw [contains_eq_testBit _ h, testBit_bit]
      refine decide_eq_decide.2 ⟨And.right, fun heq => ⟨heq ▸ h, heq⟩⟩
    unfold erase
    rw [contains_and, contains_not _ h, hbit, decide_not]
  · rw [contains_of_le _ (by omega), contains_of_le _ (by omega), Bool.false_and]

/-- A set lies between two others iff it is not changed by keeping common members only. -/
theorem and_mask_eq_iff {s t : TableSet} :
    s.mask &&& t.mask = t.mask ↔ ∀ table, t.contains table = true → s.contains table = true := by
  have heq : s.mask &&& t.mask = t.mask ↔ (⟨s.mask &&& t.mask⟩ : TableSet) = t :=
    ⟨fun h => by cases t; exact congrArg TableSet.mk h, fun h => congrArg TableSet.mask h⟩
  rw [heq, eq_iff_contains]
  apply forall_congr'
  intro table
  rw [contains_and]
  cases contains ⟨s.mask⟩ table <;> cases contains ⟨t.mask⟩ table <;> simp

theorem contains_all (n table : Nat) :
    (all n).contains table = decide (table < n ∧ table < maxTables) := by
  by_cases h : table < maxTables
  · have h64 : table < 64 := h
    rw [contains_eq_testBit _ h, all]
    split
    · rename_i hn
      -- Subtracting one from a single bit sets all the bits below it.
      have hpow : ((1 : UInt64) <<< UInt64.ofNat n).toNat = 2 ^ n := by
        have := toNat_bit hn
        rwa [bit, if_pos hn] at this
      have hone : (1 : UInt64) ≤ 1 <<< UInt64.ofNat n := by
        rw [UInt64.le_iff_toNat_le, hpow]
        exact Nat.one_le_two_pow
      rw [UInt64.toNat_sub_of_le _ _ hone, hpow, UInt64.toNat_one, Nat.testBit_two_pow_sub_one]
      simp [h]
    · -- A full word has all 64 tables.
      rename_i hn
      have : (0xFFFFFFFFFFFFFFFF : UInt64).toNat = 2 ^ 64 - 1 := by decide
      rw [this, Nat.testBit_two_pow_sub_one]
      have : table < n := by omega
      simp [h, h64, this]
  · rw [contains_of_le _ (by omega)]
    simp [h]

end TableSet

end AdaptiveJoin
