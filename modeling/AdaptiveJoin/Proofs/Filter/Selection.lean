import AdaptiveJoin.Filter.Tree
import AdaptiveJoin.Proofs.Random
import AdaptiveJoin.Proofs.Residue
import AdaptiveJoin.Proofs.Sign

/-!
# Selecting an action of a filter tree

The rewards of an action are not negative, so its score is above minus infinity if it is a number.
A node that keeps one of its actions open (`FilterNode.IsOpen`), untried or tried and never pruned,
therefore always selects an action (`FilterNode.select?_eq_some`).
-/

namespace AdaptiveJoin

/-! ### The best of some actions -/

section Best

variable {score : Nat → Float} {actions : List Nat} {action : Nat}

/-- The best action so far and its score, after some more actions. -/
def bestFrom (score : Nat → Float) (actions : List Nat) (best : Option Nat × Float) :
    Option Nat × Float :=
  actions.foldl (fun best action =>
    let score := score action
    if best.2 < score then (some action, score) else best) best

theorem mem_of_bestFrom {best : Option Nat × Float}
    (h : (bestFrom score actions best).1 = some action) :
    best.1 = some action ∨ action ∈ actions := by
  refine List.foldlRecOn (motive := fun b : Option Nat × Float =>
    b.1 = some action → best.1 = some action ∨ action ∈ actions) actions _ Or.inl
    (fun b hb a ha hbest => ?_) h
  dsimp only at hbest
  split at hbest
  · exact Or.inr (Option.some.inj hbest ▸ ha)
  · exact hb hbest

/-- An action is best if one of them is better than what is best so far. -/
theorem isSome_bestFrom {best : Option Nat × Float} (haction : action ∈ actions)
    (hlt : best.2 < score action) : (bestFrom score actions best).1.isSome = true := by
  -- Once an action is best, there is always one.
  have hkeep (rest : List Nat) (best : Option Nat × Float) (h : best.1.isSome = true) :
      (bestFrom score rest best).1.isSome = true := by
    refine List.foldlRecOn (motive := fun b : Option Nat × Float => b.1.isSome = true) rest _ h
      fun b hb a ha => ?_
    dsimp only
    split
    · rfl
    · exact hb
  induction actions generalizing best with
  | nil => exact absurd haction List.not_mem_nil
  | cons first rest ih =>
    unfold bestFrom
    rw [List.foldl_cons]
    by_cases hfirst : best.2 < score first
    · rw [if_pos hfirst]
      exact hkeep rest _ rfl
    · rw [if_neg hfirst]
      rcases List.mem_cons.1 haction with rfl | haction
      · exact absurd hlt hfirst
      · exact ih haction hlt

end Best

namespace FilterNode

variable {n : FilterNode} {exploration : Float} {last : Nat}

/-! ### Scores -/

/-- The sums of rewards are not negative. -/
def HasNonnegRewards (n : FilterNode) : Prop := ∀ action : Nat, ¬n.rewards[action]?.getD 0 < 0

/-- The scores of tried actions are numbers. -/
def HasNumericScores (n : FilterNode) (exploration : Float) : Prop :=
  ∀ action, n.triesOf action ≠ 0 → (n.score exploration action).isNaN = false

/-- The scores of tried actions are numbers once a certain action has been tried.  Until then that
action waits, and no scores are compared. -/
def IsComparable (n : FilterNode) (exploration : Float) (last : Nat) : Prop :=
  n.triesOf last ≠ 0 → n.HasNumericScores exploration

/-- **A score that is a number is at least 0.** -/
theorem HasNonnegRewards.zero_le_score (h : n.HasNonnegRewards) (hexploration : ¬exploration < 0)
    {action : Nat} (hnumber : (n.score exploration action).isNaN = false) :
    0 ≤ n.score exploration action := by
  refine zero_le_iff.2 ⟨hnumber, not_add_lt_zero ?_ ?_⟩
  · exact not_div_toFloat_lt_zero (h action) _
  · exact not_mul_lt_zero hexploration (not_sqrt_lt_zero _)

theorem hasNonnegRewards_start (kind : Kind) (createdIn : Nat) (chosen : List Nat)
    (actions : Array FilterAction) :
    (start kind createdIn chosen actions).HasNonnegRewards := by
  intro action
  have hzero : (start kind createdIn chosen actions).rewards[action]?.getD 0 = 0 := by
    simp only [start, Array.getElem?_replicate]
    split <;> rfl
  rw [hzero]
  decide

theorem HasNonnegRewards.record (h : n.HasNonnegRewards) (action : Nat) {reward : Float}
    (hreward : 0 ≤ reward) : (n.record action reward).HasNonnegRewards := by
  intro action'
  have hsame := h action'
  simp only [FilterNode.record, Array.getElem?_modify]
  split
  · cases hsum : n.rewards[action']? with
    | none => exact (by decide : ¬(0 : Float) < 0)
    | some sum =>
      rw [hsum] at hsame
      exact not_add_lt_zero hsame (zero_le_iff.1 hreward).2
  · exact hsame

/-! ### Selection -/

/-- The untried actions that have not been pruned. -/
def waiting (n : FilterNode) : Array Nat := n.untried.filter fun a => !n.isPruned a

theorem mem_waiting {action : Nat} :
    action ∈ n.waiting ↔ action ∈ n.untried ∧ n.isPruned action = false := by
  rw [waiting, Array.mem_filter, Bool.not_eq_true']

/-- **Selecting an action takes one of the waiting actions, or the best one if none waits.** -/
theorem select?_cases {γ : Type} [RandomSource γ] (n : FilterNode) (exploration : Float) (g : γ) :
    (∃ action untried g',
      n.select? exploration g = (some action, { n with untried := untried }, g') ∧
      (untried.push action).Perm n.waiting) ∨
    n.waiting = #[] ∧ ((0 < n.actions.size ∧ ∃ offset g', n.select? exploration g =
        (n.bestAction? exploration offset, { n with untried := #[] }, g')) ∨
      n.actions.size = 0 ∧ n.select? exploration g = (none, { n with untried := #[] }, g)) := by
  unfold select?
  dsimp only
  split
  · rename_i hpos
    -- Some action is waiting, and one of them is drawn.
    have hpick := (RandomSource.belowWide g n.waiting.size hpos).1.isLt
    exact Or.inl ⟨_, _, _, rfl, swapRemove_perm n.waiting hpick⟩
  · rename_i hnone
    have hempty : n.waiting = #[] := Array.eq_empty_of_size_eq_zero (Nat.eq_zero_of_not_pos hnone)
    refine Or.inr ⟨hempty, ?_⟩
    unfold waiting at hempty
    -- Nothing is waiting: the offset at which the search for the best starts is drawn, if any.
    rw [hempty]
    split
    · rename_i hactions
      exact Or.inl ⟨hactions, _, _, rfl⟩
    · rename_i hactions
      exact Or.inr ⟨Nat.eq_zero_of_not_pos hactions, rfl⟩

/-- The best action is one that has not been pruned. -/
theorem bestAction?_eq_some {offset action : Nat}
    (h : n.bestAction? exploration offset = some action) :
    action < n.actions.size ∧ n.isPruned action = false := by
  rcases mem_of_bestFrom h with hnone | hmem
  · exact absurd hnone (by simp)
  · obtain ⟨hround, hopen⟩ := List.mem_filter.1 hmem
    obtain ⟨k, hk, rfl⟩ := List.mem_map.1 hround
    rw [Bool.and_eq_true, Bool.not_eq_true'] at hopen
    exact ⟨Nat.mod_lt _ (by have := List.mem_range.1 hk; omega), hopen.1⟩

/-! ### Open actions -/

/-- The lists of a node fit its actions. -/
structure IsSized (n : FilterNode) : Prop where
  size_tries : n.tries.size = n.actions.size
  size_pruned : n.pruned.size = n.actions.size
  untried_lt : ∀ a ∈ n.untried, a < n.actions.size

/-- One of the actions of a node is open: it has not been pruned, and it waits to be tried or has
been tried. -/
structure IsOpen (n : FilterNode) (last : Nat) : Prop extends n.IsSized where
  lt : last < n.actions.size
  notPruned : n.isPruned last = false
  waits : last ∈ n.untried ∨ n.triesOf last ≠ 0

/-- The actions that have not been pruned. -/
def unpruned (n : FilterNode) : List Nat :=
  (List.range n.actions.size).filter fun action => !n.isPruned action

/-- An action of a node has been selected that has not been pruned, and the open action is still
open unless it is the selected one. -/
structure HasSelected (n : FilterNode) (action last : Nat) : Prop extends n.IsSized where
  mem_unpruned : action ∈ n.unpruned
  lt : last < n.actions.size
  notPruned : n.isPruned last = false
  isOpen : action ≠ last → n.IsOpen last

/-- A new node keeps any of its actions open. -/
theorem isOpen_start (kind : Kind) (createdIn : Nat) (chosen : List Nat)
    {actions : Array FilterAction} (h : last < actions.size) :
    (start kind createdIn chosen actions).IsOpen last where
  size_tries := Array.size_replicate
  size_pruned := Array.size_replicate
  untried_lt a ha := Array.mem_range.1 ha
  lt := h
  notPruned := by simp [start, isPruned, h]
  waits := Or.inl (Array.mem_range.2 h)

/-- An open action that has been tried lets some action be best. -/
theorem IsOpen.isSome_bestAction? (h : n.IsOpen last) (hrewards : n.HasNonnegRewards)
    (hexploration : ¬exploration < 0) (hscores : n.HasNumericScores exploration)
    (htried : n.triesOf last ≠ 0) (offset : Nat) :
    (n.bestAction? exploration offset).isSome = true := by
  have hround : last ∈ (List.range n.actions.size).map fun k =>
      (offset + k) % n.actions.size := by
    obtain ⟨k, hk, heq⟩ := exists_add_mod_eq h.lt offset
    exact List.mem_map.2 ⟨k, List.mem_range.2 hk, heq⟩
  refine isSome_bestFrom (List.mem_filter.2 ⟨hround, ?_⟩) ?_
  · simp [h.notPruned, htried]
  · exact neg_infinity_lt (hrewards.zero_le_score hexploration (hscores last htried))

/-- **A node with an open action selects an action that has not been pruned**, and the open action
stays so unless it is the selected one. -/
theorem IsOpen.select?_eq_some {γ : Type} [RandomSource γ] (h : n.IsOpen last)
    (hrewards : n.HasNonnegRewards) (hexploration : ¬exploration < 0)
    (hscores : n.IsComparable exploration last) (g : γ) :
    ∃ action untried g',
      n.select? exploration g = (some action, { n with untried := untried }, g') ∧
      ({ n with untried := untried } : FilterNode).HasSelected action last := by
  have hunpruned {action : Nat} (hlt : action < n.actions.size)
      (hnot : n.isPruned action = false) : action ∈ n.unpruned :=
    List.mem_filter.2 ⟨List.mem_range.2 hlt, by rw [hnot]; rfl⟩
  rcases n.select?_cases exploration g with
    ⟨action, untried, g', heq, hperm⟩ | ⟨hempty, hbest⟩
  · -- A waiting action is selected, and the others still wait.
    obtain ⟨huntried, hnot⟩ := mem_waiting.1 (hperm.mem_iff.1 Array.mem_push_self)
    have hsized : ({ n with untried := untried } : FilterNode).IsSized :=
      ⟨h.size_tries, h.size_pruned, fun a ha =>
        h.untried_lt a (mem_waiting.1 (hperm.mem_iff.1 (Array.mem_push_of_mem _ ha))).1⟩
    refine ⟨action, untried, g', heq, hsized, hunpruned (h.untried_lt _ huntried) hnot, h.lt,
      h.notPruned, fun hne => ⟨hsized, h.lt, h.notPruned, h.waits.imp_left fun hwaits => ?_⟩⟩
    have hlast := Array.mem_push.1 (hperm.mem_iff.2 (mem_waiting.2 ⟨hwaits, h.notPruned⟩))
    exact hlast.resolve_right hne.symm
  · -- No action waits, so the open one has been tried, and some action is best.
    have htried : n.triesOf last ≠ 0 := by
      refine h.waits.resolve_left fun hwaits => ?_
      have := mem_waiting.2 ⟨hwaits, h.notPruned⟩
      rw [hempty] at this
      exact Array.not_mem_empty _ this
    have hsized : ({ n with untried := #[] } : FilterNode).IsSized :=
      ⟨h.size_tries, h.size_pruned, fun a ha => absurd ha (Array.not_mem_empty a)⟩
    rcases hbest with ⟨-, offset, g', heq⟩ | ⟨hsize, -⟩
    · -- The open action can be compared with all others, so the best of them exists.
      obtain ⟨action, haction⟩ := Option.isSome_iff_exists.1
        (h.isSome_bestAction? hrewards hexploration (hscores htried) htried offset)
      obtain ⟨hlt, hnot⟩ := bestAction?_eq_some haction
      exact ⟨action, #[], g', by rw [heq, haction], hsized, hunpruned hlt hnot, h.lt, h.notPruned,
        fun _ => ⟨hsized, h.lt, h.notPruned, Or.inr htried⟩⟩
    · exact absurd h.lt (by omega)

/-! ### Tries -/

theorem triesOf_record (n : FilterNode) (action : Nat) (reward : Float) (action' : Nat) :
    (n.record action reward).triesOf action' =
      if action = action' ∧ action < n.tries.size then n.triesOf action' + 1
      else n.triesOf action' := by
  unfold triesOf record
  rw [Array.getElem?_modify]
  by_cases heq : action = action'
  · subst heq
    by_cases hlt : action < n.tries.size <;> simp [hlt]
  · simp [heq]

theorem isPruned_prune (n : FilterNode) (action action' : Nat) :
    (n.prune action).isPruned action' =
      if action = action' ∧ action < n.pruned.size then true else n.isPruned action' := by
  unfold isPruned prune
  rw [Array.getElem?_setIfInBounds]
  by_cases heq : action = action'
  · subst heq
    by_cases hlt : action < n.pruned.size <;> simp [hlt]
  · simp [heq]

theorem IsSized.record (h : n.IsSized) (action : Nat) (reward : Float) :
    (n.record action reward).IsSized :=
  ⟨Array.size_modify.trans h.size_tries, h.size_pruned, h.untried_lt⟩

variable {action : Nat}

/-- Recording a try of the selected action keeps the open action, whichever it is. -/
theorem HasSelected.isOpen_record (h : n.HasSelected action last) (reward : Float) :
    (n.record action reward).IsOpen last := by
  refine ⟨h.toIsSized.record action reward, h.lt, h.notPruned, ?_⟩
  rw [triesOf_record]
  rcases eq_or_ne action last with rfl | hne
  · exact Or.inr (by rw [if_pos ⟨rfl, h.size_tries ▸ h.lt⟩]; omega)
  · rw [if_neg fun h => hne h.1]
    exact (h.isOpen hne).waits

/-- Pruning the selected action keeps the open action if it is another one. -/
theorem HasSelected.isOpen_prune (h : n.HasSelected action last) (hne : action ≠ last) :
    (n.prune action).IsOpen last where
  size_tries := h.size_tries
  size_pruned := Array.size_setIfInBounds.trans h.size_pruned
  untried_lt := h.untried_lt
  lt := h.lt
  notPruned := by rw [isPruned_prune, if_neg fun h => hne h.1, h.notPruned]
  waits := (h.isOpen hne).waits

/-- Pruning the selected action leaves fewer of them. -/
theorem HasSelected.length_unpruned_lt (h : n.HasSelected action last) :
    (n.prune action).unpruned.length < n.unpruned.length := by
  have hlt : action < n.pruned.size := by
    rw [h.size_pruned]
    exact List.mem_range.1 (List.mem_filter.1 h.mem_unpruned).1
  have heq : (n.prune action).unpruned = n.unpruned.filter (· != action) := by
    unfold unpruned
    rw [List.filter_filter]
    refine List.filter_congr fun a _ => ?_
    rw [isPruned_prune]
    rcases eq_or_ne action a with rfl | hne
    · simp [hlt]
    · simp [hne, hne.symm]
  rw [heq, List.length_filter_lt_length_iff_exists]
  exact ⟨action, h.mem_unpruned, by simp⟩

/-- The nodes behind the actions do not matter. -/
theorem HasSelected.withChildren (h : n.HasSelected action last) (children : Array (Option Nat)) :
    ({ n with children := children } : FilterNode).HasSelected action last :=
  have hsized : ({ n with children := children } : FilterNode).IsSized :=
    ⟨h.size_tries, h.size_pruned, h.untried_lt⟩
  ⟨hsized, h.mem_unpruned, h.lt, h.notPruned,
    fun hne => ⟨hsized, h.lt, h.notPruned, (h.isOpen hne).waits⟩⟩

end FilterNode

end AdaptiveJoin
