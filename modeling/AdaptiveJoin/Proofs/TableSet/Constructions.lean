import Mathlib.Data.Finset.Card
import AdaptiveJoin.Plan
import AdaptiveJoin.Proofs.TableSet

/-!
# Table sets as finite sets of numbers

The members of a `TableSet` form a finite set of numbers below 64 (`TableSet.members`), and every
observation of the set is the observation of its members: inclusion, overlap, emptiness, equality,
the ascending listing, and the population count (`TableSet.card_members`).

A `TableSet.Construction` is a way to build a set by the operations on sets, with tables of any
number.  Read as operations on finite sets of numbers it gives the tables that were meant
(`Construction.tables`); those below 64 are held (`Construction.held`).

* `members_build` — **the set that is built has exactly the held tables as members**, by induction
  on the construction with one case per operation;
* `build_observations` — so whatever is observed of sets that are built is what the held tables
  say, and a set together with a table is a faithful key of a table of plans.
-/

namespace AdaptiveJoin

namespace TableSet

/-! ### The members of a set -/

/-- The members as a finite set of numbers. -/
def members (s : TableSet) : Finset Nat :=
  (Finset.range maxTables).filter fun table => s.contains table = true

@[simp]
theorem mem_members {s : TableSet} {table : Nat} :
    table ∈ s.members ↔ s.contains table = true := by
  unfold members
  rw [Finset.mem_filter, Finset.mem_range, and_iff_right_iff_imp]
  intro h
  by_contra hle
  rw [contains_of_le s (by omega)] at h
  cases h

theorem members_inj {s t : TableSet} : s.members = t.members ↔ s = t := by
  rw [Finset.ext_iff, eq_iff_contains]
  apply forall_congr'
  intro table
  rw [mem_members, mem_members]
  exact Bool.eq_iff_iff.symm

theorem isEmpty_iff_members {s : TableSet} : s.isEmpty = true ↔ s.members = ∅ := by
  rw [isEmpty_iff, Finset.eq_empty_iff_forall_notMem]
  apply forall_congr'
  intro table
  rw [mem_members, Bool.not_eq_true]

theorem isSubset_iff_members {s t : TableSet} :
    s.isSubset t = true ↔ s.members ⊆ t.members := by
  rw [isSubset_iff, Finset.subset_iff]
  apply forall_congr'
  intro table
  rw [mem_members, mem_members]

theorem intersects_iff_members {s t : TableSet} :
    s.intersects t = true ↔ (s.members ∩ t.members).Nonempty := by
  rw [intersects_iff]
  apply exists_congr
  intro table
  rw [Finset.mem_inter, mem_members, mem_members]

/-! ### Listing and counting -/

theorem mem_toList {s : TableSet} {table : Nat} : table ∈ s.toList ↔ table ∈ s.members := by
  unfold toList members
  rw [List.mem_filter, List.mem_range, Finset.mem_filter, Finset.mem_range]

theorem toList_ascending (s : TableSet) : s.toList.Pairwise (· < ·) :=
  List.Pairwise.filter _ List.pairwise_lt_range

/-- The population count of the low bits, added to a start, counts the positions that are set. -/
theorem cpopNatRec_eq_countP {width : Nat} (word : BitVec width) (n start : Nat) :
    word.cpopNatRec n start = start + (List.range n).countP word.getLsbD := by
  induction n generalizing start with
  | zero => rfl
  | succ n ih =>
    rw [BitVec.cpopNatRec_succ, ih, List.range_succ, List.countP_append, List.countP_singleton]
    cases word.getLsbD n with
    | false => rfl
    | true =>
      show start + 1 + _ = start + (_ + 1)
      omega

/-- The number of bits that are set is the length of the listing. -/
theorem size_eq_length (s : TableSet) : s.size = s.toList.length := by
  have hbits : ∀ table ∈ List.range maxTables,
      s.mask.toBitVec.getLsbD table = true ↔ s.contains table = true := by
    intro table htable
    rw [contains_eq_testBit s (List.mem_range.1 htable)]
    rfl
  calc s.size = s.mask.toBitVec.cpop.toNat := rfl
    _ = (List.range maxTables).countP s.mask.toBitVec.getLsbD := by
      rw [BitVec.toNat_cpop, cpopNatRec_eq_countP, Nat.zero_add]
      rfl
    _ = (List.range maxTables).countP s.contains := List.countP_congr hbits
    _ = s.toList.length := List.countP_eq_length_filter

/-- **The size of a set is the number of its members.** -/
theorem card_members (s : TableSet) : s.members.card = s.size := by
  have hlist : s.members = s.toList.toFinset := by
    ext table
    rw [List.mem_toFinset, mem_toList]
  have hnodup : s.toList.Nodup := (toList_ascending s).imp Nat.ne_of_lt
  rw [hlist, List.toFinset_card_of_nodup hnodup, size_eq_length]

/-- Every set is the set of its listing. -/
theorem ofList_toList (s : TableSet) : ofList s.toList = s := by
  rw [← members_inj]
  ext table
  rw [mem_members, contains_ofList, decide_eq_true_eq, mem_toList]
  constructor
  · exact And.right
  · intro hmem
    exact ⟨Finset.mem_range.1 (Finset.mem_filter.1 hmem).1, hmem⟩

/-! ### Constructions -/

/-- A set built by operations on sets, with tables of any number.  To insert a table stands for the
change in place and for the new set alike. -/
inductive Construction where
  | empty
  | all (n : Nat)
  | ofList (tables : List Nat)
  | insert (c : Construction) (table : Nat)
  | erase (c : Construction) (table : Nat)
  | union (c d : Construction)

namespace Construction

/-- The set that is built. -/
def build : Construction → TableSet
  | empty => TableSet.empty
  | all n => TableSet.all n
  | ofList tables => TableSet.ofList tables
  | insert c table => c.build.insert table
  | erase c table => c.build.erase table
  | union c d => c.build.union d.build

/-- The tables that are meant: the same operations on finite sets of numbers. -/
def tables : Construction → Finset Nat
  | empty => ∅
  | all n => Finset.range n
  | ofList tables => tables.toFinset
  | insert c table => Insert.insert table c.tables
  | erase c table => c.tables.erase table
  | union c d => c.tables ∪ d.tables

/-- The tables that are meant and that a set can hold. -/
def held (c : Construction) : Finset Nat := c.tables.filter (· < maxTables)

theorem mem_held {c : Construction} {table : Nat} :
    table ∈ c.held ↔ table ∈ c.tables ∧ table < maxTables := Finset.mem_filter

/-- A table is a member of what is built iff it is meant and below the limit. -/
theorem contains_build (c : Construction) (table : Nat) :
    c.build.contains table = true ↔ table ∈ c.tables ∧ table < maxTables := by
  induction c with
  | empty =>
    rw [show (empty.build).contains table = false from contains_empty table]
    simp [tables]
  | all n => rw [build, contains_all, decide_eq_true_eq, tables, Finset.mem_range]
  | ofList list =>
    rw [build, contains_ofList, decide_eq_true_eq, tables, List.mem_toFinset, and_comm]
  | insert c other ih =>
    rw [build, contains_insert, Bool.or_eq_true, ih, decide_eq_true_eq, tables, Finset.mem_insert]
    constructor
    · rintro (⟨hmem, hlt⟩ | ⟨hlt, rfl⟩)
      · exact ⟨Or.inr hmem, hlt⟩
      · exact ⟨Or.inl rfl, hlt⟩
    · rintro ⟨rfl | hmem, hlt⟩
      · exact Or.inr ⟨hlt, rfl⟩
      · exact Or.inl ⟨hmem, hlt⟩
  | erase c other ih =>
    rw [build, contains_erase, Bool.and_eq_true, ih, decide_eq_true_eq, tables, Finset.mem_erase,
      ne_comm]
    tauto
  | union c d ihc ihd =>
    rw [build, contains_union, Bool.or_eq_true, ihc, ihd, tables, Finset.mem_union, or_and_right]

/-- **The members of the set that is built are the held tables.** -/
theorem members_build (c : Construction) : c.build.members = c.held := by
  ext table
  rw [mem_members, contains_build, mem_held]

/-- Every set is built by some operations. -/
theorem exists_build (s : TableSet) : ∃ c : Construction, c.build = s :=
  ⟨.ofList s.toList, ofList_toList s⟩

/-- **What is observed of sets that are built is what their held tables say**: membership,
inclusion, overlap, emptiness and equality; the listing is strictly ascending and complete, the size
counts it, and a plan is found under a set and a table iff it was filed under the same tables. -/
theorem build_observations (c d : Construction) :
    (∀ table, c.build.contains table = true ↔ table ∈ c.held) ∧
      (c.build.isSubset d.build = true ↔ c.held ⊆ d.held) ∧
      (c.build.intersects d.build = true ↔ (c.held ∩ d.held).Nonempty) ∧
      (c.build.isEmpty = true ↔ c.held = ∅) ∧
      (c.build = d.build ↔ c.held = d.held) ∧
      (c.build.toList.Pairwise (· < ·) ∧ ∀ table, table ∈ c.build.toList ↔ table ∈ c.held) ∧
      c.build.size = c.held.card ∧
      ∀ (positions : Std.HashMap (TableSet × Nat) PositionPlan) (table other : Nat)
        (plan : PositionPlan),
        (positions.insert (c.build, table) plan)[(d.build, other)]? =
          if c.held = d.held ∧ table = other then some plan
          else positions[(d.build, other)]? := by
  have heq : c.build = d.build ↔ c.held = d.held := by
    rw [← members_inj, members_build, members_build]
  refine ⟨fun table => ?_, ?_, ?_, ?_, heq, ⟨toList_ascending _, fun table => ?_⟩, ?_, ?_⟩
  · rw [contains_build, mem_held]
  · rw [isSubset_iff_members, members_build, members_build]
  · rw [intersects_iff_members, members_build, members_build]
  · rw [isEmpty_iff_members, members_build]
  · rw [mem_toList, members_build]
  · rw [← card_members, members_build]
  · -- Keys are equal if they have the same tables, whatever their constructions are.
    intro positions table other plan
    rw [Std.HashMap.getElem?_insert]
    simp only [beq_iff_eq, Prod.mk.injEq, heq]

example : ((ofList [63, 64]).insert 0).build.toList = [0, 63] := by decide

end Construction

end TableSet

end AdaptiveJoin
