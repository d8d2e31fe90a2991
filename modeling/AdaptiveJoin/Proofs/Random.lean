import AdaptiveJoin.Random

/-!
# Random choices permute and select

Whatever a random source draws, shuffling permutes an array, and what is chosen is a member.
-/

namespace AdaptiveJoin

variable {α γ : Type}

theorem swapIfInBounds_perm (a : Array α) (i j : Nat) : (a.swapIfInBounds i j).Perm a := by
  unfold Array.swapIfInBounds
  split
  · split
    · exact Array.swap_perm _ _
    · exact .refl a
  · exact .refl a

/-- Removing a member leaves the others. -/
theorem swapRemove_perm (a : Array α) {i : Nat} (h : i < a.size) :
    ((swapRemove a i).push a[i]).Perm a := by
  have hsize : (a.swapIfInBounds i (a.size - 1)).size = a.size := Array.size_swapIfInBounds
  have hlast : (a.swapIfInBounds i (a.size - 1))[a.size - 1]? = some a[i] := by
    rw [Array.getElem?_eq_getElem (by omega), Array.getElem_swapIfInBounds_right h]
  have hperm := swapIfInBounds_perm a i (a.size - 1)
  have hne : (a.swapIfInBounds i (a.size - 1)).size ≠ 0 := by omega
  unfold swapRemove
  obtain ⟨rest, last, heq⟩ := Array.eq_push_of_size_ne_zero hne
  rw [heq] at hsize hlast hperm ⊢
  rw [Array.size_push] at hsize
  have hplace : a.size - 1 = rest.size := by omega
  rw [hplace, Array.getElem?_push_size, Option.some.injEq] at hlast
  rwa [Array.pop_push, ← hlast]

namespace RandomSource

variable [RandomSource γ]

theorem shuffleFrom_perm (i : Nat) (a : Array α) (g : γ) : (shuffleFrom i a g).1.Perm a := by
  induction i generalizing a g with
  | zero => exact .refl a
  | succ i ih => exact (ih _ _).trans (swapIfInBounds_perm a _ _)

/-- **Shuffling permutes an array.** -/
theorem shuffle_perm (a : Array α) (g : γ) : (shuffle a g).1.Perm a := shuffleFrom_perm _ a g

/-- What is chosen is a member. -/
theorem mem_of_choose {a : Array α} {g : γ} {x : α} (h : (choose a g).1 = some x) : x ∈ a := by
  unfold choose at h
  split at h
  · rw [← Option.some.inj h]
    exact Array.getElem_mem _
  · exact absurd h (by simp)

end RandomSource

end AdaptiveJoin
