import Mathlib.Data.List.Sort
import AdaptiveJoin.Engine
import AdaptiveJoin.Proofs.RowOrder
import AdaptiveJoin.Query.NestedLoop

/-!
# Ascending tuples

The nested loops list the result of a query in ascending order (`Query.pairwise_nestedLoopJoin`).
So different tuples that are sorted are the result as soon as they have the same members
(`Query.mergeSort_eq_nestedLoopJoin`).
-/

namespace AdaptiveJoin

theorem tupleLe_iff {a b : Tuple} : tupleLe a b = true ↔ ¬b.toList < a.toList := by
  unfold tupleLe
  rw [bne_iff_ne, ne_eq, compareLex_eq_gt_iff]

theorem pairwise_rowsBelow (bounds : List Nat) : (rowsBelow bounds).Pairwise (· < ·) := by
  induction bounds with
  | nil => exact List.pairwise_singleton _ _
  | cons bound bounds ih =>
    refine List.pairwise_flatMap.2 ⟨fun row _ => ?_, ?_⟩
    · exact List.pairwise_map.2 (ih.imp fun hlt => List.cons_lt_cons_iff.2 (Or.inr ⟨rfl, hlt⟩))
    · refine List.pairwise_lt_range.imp fun hlt x hx y hy => ?_
      obtain ⟨xs, -, rfl⟩ := List.mem_map.1 hx
      obtain ⟨ys, -, rfl⟩ := List.mem_map.1 hy
      exact List.cons_lt_cons_iff.2 (Or.inl hlt)

/-- Different tuples that are sorted ascend. -/
theorem pairwise_mergeSort_tupleLe {tuples : List Tuple} (h : tuples.Nodup) :
    (tuples.mergeSort tupleLe).Pairwise fun a b => a.toList < b.toList := by
  have hsorted : (tuples.mergeSort tupleLe).Pairwise fun a b => tupleLe a b = true := by
    apply List.pairwise_mergeSort
    · intro a b c hab hbc
      rw [tupleLe_iff, List.not_lt] at *
      exact List.le_trans hab hbc
    · intro a b
      rw [Bool.or_eq_true, tupleLe_iff, tupleLe_iff, List.not_lt, List.not_lt]
      exact List.le_total _ _
  have hnodup := (List.mergeSort_perm tuples tupleLe).nodup_iff.2 h
  apply (hsorted.and hnodup).imp
  rintro a b ⟨hle, hne⟩
  rw [tupleLe_iff] at hle
  rcases lt_trichotomy a.toList b.toList with hlt | heq | hgt
  · exact hlt
  · exact absurd (Array.toList_inj.1 heq) hne
  · exact absurd hgt hle

namespace Query

/-- **The nested loops list the result in ascending order.** -/
theorem pairwise_nestedLoopJoin (q : Query) :
    q.nestedLoopJoin.Pairwise fun a b => a.toList < b.toList := by
  unfold nestedLoopJoin
  apply List.Pairwise.filter
  rw [List.pairwise_map]
  exact pairwise_rowsBelow _

/-- **Different tuples with the members of the result are the result once they are sorted.** -/
theorem mergeSort_eq_nestedLoopJoin {q : Query} {tuples : List Tuple} (h : tuples.Nodup)
    (hmem : ∀ tuple, tuple ∈ tuples ↔ q.IsResult tuple) :
    tuples.mergeSort tupleLe = q.nestedLoopJoin := by
  have : Std.Irrefl fun a b : Tuple => a.toList < b.toList := ⟨fun a => lt_irrefl a.toList⟩
  have : Std.Antisymm fun a b : Tuple => a.toList < b.toList :=
    ⟨fun a b hlt hgt => absurd hgt (lt_asymm hlt)⟩
  apply List.Pairwise.eq_of_mem_iff (pairwise_mergeSort_tupleLe h) q.pairwise_nestedLoopJoin
  intro tuple
  rw [List.mem_mergeSort, hmem, mem_nestedLoopJoin]

end Query

end AdaptiveJoin
