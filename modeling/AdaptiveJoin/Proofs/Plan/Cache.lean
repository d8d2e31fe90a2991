import AdaptiveJoin.Plan

/-!
# Remembered plans are the plans

A cache is faithful if what it remembers is what its planner makes.  Making a plan keeps it faithful
(`PlanCache.IsFaithful.plan`), so a plan does not depend on the plans made before
(`PlanCache.plan_eq`).
-/

namespace AdaptiveJoin

namespace PlanCache

/-- What the cache remembers is what its planner makes. -/
structure IsFaithful (c : PlanCache) : Prop where
  positions : ∀ joined table plan, c.positions[(joined, table)]? = some plan →
    plan = c.planner.position joined table
  plans : ∀ order plan, c.plans[order]? = some plan → plan = c.planner.plan order

theorem isFaithful_empty (planner : Planner) : (empty planner).IsFaithful :=
  ⟨fun joined table plan h => by simp [empty] at h, fun order plan h => by simp [empty] at h⟩

variable {c : PlanCache}

/-! ### Positions -/

@[simp]
theorem position_planner (c : PlanCache) (joined : TableSet) (table : Nat) :
    (c.position joined table).2.planner = c.planner := by
  unfold position
  split <;> rfl

theorem position_eq (h : c.IsFaithful) (joined : TableSet) (table : Nat) :
    (c.position joined table).1 = c.planner.position joined table := by
  unfold position
  split
  · rename_i plan hplan
    exact h.positions joined table plan hplan
  · rfl

theorem IsFaithful.position (h : c.IsFaithful) (joined : TableSet) (table : Nat) :
    (c.position joined table).2.IsFaithful := by
  unfold PlanCache.position
  split
  · exact h
  · refine ⟨fun joined' table' plan hplan => ?_, h.plans⟩
    rw [Std.HashMap.getElem?_insert] at hplan
    split at hplan
    · rename_i heq
      obtain ⟨rfl, rfl⟩ := Prod.mk.inj (eq_of_beq heq)
      exact (Option.some.inj hplan).symm
    · exact h.positions joined' table' plan hplan

@[simp]
theorem positionsFrom_planner (c : PlanCache) (joined : TableSet) (tables : List Nat) :
    (c.positionsFrom joined tables).2.planner = c.planner := by
  induction tables generalizing c joined with
  | nil => rfl
  | cons table rest ih =>
    simp only [positionsFrom]
    rw [ih, position_planner]

theorem positionsFrom_eq (h : c.IsFaithful) (joined : TableSet) (tables : List Nat) :
    (c.positionsFrom joined tables).1 = c.planner.positionsFrom joined tables := by
  induction tables generalizing c joined with
  | nil => rfl
  | cons table rest ih =>
    simp only [positionsFrom, Planner.positionsFrom]
    rw [position_eq h, ih (h.position joined table), position_planner]

theorem IsFaithful.positionsFrom (h : c.IsFaithful) (joined : TableSet) (tables : List Nat) :
    (c.positionsFrom joined tables).2.IsFaithful := by
  induction tables generalizing c joined with
  | nil => exact h
  | cons table rest ih => exact ih (h.position joined table) (joined.insert table)

/-! ### Plans -/

@[simp]
theorem plan_planner (c : PlanCache) (order : JoinOrder) :
    (c.plan order).2.planner = c.planner := by
  unfold plan
  split
  · rfl
  · exact positionsFrom_planner c ∅ order.toList

/-- **A remembered plan is the plan that the planner makes.** -/
theorem plan_eq (h : c.IsFaithful) (order : JoinOrder) :
    (c.plan order).1 = c.planner.plan order := by
  unfold plan
  split
  · rename_i plan hplan
    exact h.plans order plan hplan
  · simp only [Planner.plan]
    rw [positionsFrom_eq h]

/-- **Making a plan keeps the cache faithful.** -/
theorem IsFaithful.plan (h : c.IsFaithful) (order : JoinOrder) : (c.plan order).2.IsFaithful := by
  have hplan := plan_eq h order
  rw [PlanCache.plan] at hplan ⊢
  split at hplan
  · exact h
  · have hpos := h.positionsFrom ∅ order.toList
    refine ⟨hpos.positions, fun order' plan' hplan' => ?_⟩
    show plan' = (c.positionsFrom ∅ order.toList).2.planner.plan order'
    rw [positionsFrom_planner]
    rw [Std.HashMap.getElem?_insert] at hplan'
    -- The new plan is the one just made; the others were remembered before.
    split at hplan'
    · rename_i heq
      obtain rfl := eq_of_beq heq
      rw [← Option.some.inj hplan']
      exact hplan
    · have := hpos.plans order' plan' hplan'
      rwa [positionsFrom_planner] at this

end PlanCache

end AdaptiveJoin
