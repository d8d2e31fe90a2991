import AdaptiveJoin.Proofs.Crew.Forward

/-!
# No tuple is emitted twice

Between two episodes of an order, a worker may run other orders, which move it ahead on the initial
parts that they share with the order, and other workers may cover rows.  Both only move the point
from which the order goes on ahead, so the episodes of one worker and one order emit an ascending
sequence of tuples all the same.

* `Crew.HasPassed.execute`: everything that a worker has emitted for an order ascends and lies
  behind the point that it has reached with the order.
* `Crew.mem_results_run`: the results of a worker are what its episodes have emitted.
-/

namespace AdaptiveJoin

namespace Crew

/-- The tuples that an episode emits, in this order; none if there is nothing to do. -/
def emission (c : Crew) (task : Task) (number : Nat) (order : JoinOrder) : List Tuple :=
  match c.workers[number]? with
  | none => []
  | some w =>
    match w.begin? task c.shared.progress order with
    | .error _ => []
    | .ok checkpoint =>
      ((c.episode task w order).run checkpoint.tuple w.cursors).2.emitted.toList

/-- The episodes that a worker runs of an order along a schedule: the outcome of each and the tuples
that it emits. -/
def episodesOf (c : Crew) (task : Task) (number : Nat) (order : JoinOrder) :
    List (Nat × JoinOrder) → List (Outcome × List Tuple)
  | [] => []
  | entry :: rest =>
    (if entry = (number, order) then
      (c.execute task number order).1.toList.map fun outcome =>
        (outcome, c.emission task number order)
    else []) ++ (c.execute task entry.1 entry.2).2.episodesOf task number order rest

variable {c : Crew} {p : Planner} {task : Task} {workers : Nat}

/-! ### One episode -/

section Emission

variable {number : Nat} {order : JoinOrder}

theorem emission_of_none (hw : c.workers[number]? = none) (task : Task) (order : JoinOrder) :
    c.emission task number order = [] := by
  unfold emission
  rw [hw]

theorem emission_of_error {w : Worker} {outcome : Outcome} (hw : c.workers[number]? = some w)
    (hbegin : w.begin? task c.shared.progress order = .error outcome) :
    c.emission task number order = [] := by
  simp only [emission, hw, hbegin]

theorem emission_of_ok {w : Worker} {checkpoint : Checkpoint} (hw : c.workers[number]? = some w)
    (hbegin : w.begin? task c.shared.progress order = .ok checkpoint) :
    c.emission task number order =
      ((c.episode task w order).run checkpoint.tuple w.cursors).2.emitted.toList := by
  simp only [emission, hw, hbegin]

/-- An episode counts the tuples that it emits; without an outcome there are none. -/
theorem length_emission (c : Crew) (task : Task) (number : Nat) (order : JoinOrder) :
    (c.emission task number order).length =
      ((c.execute task number order).1.map Outcome.nrResults).getD 0 := by
  cases hw : c.workers[number]? with
  | none =>
    rw [execute_of_none hw, emission_of_none hw]
    rfl
  | some w =>
    rcases execute_cases hw order with ⟨outcome, hbegin, heq⟩ | ⟨checkpoint, hbegin, heq⟩
    · rw [heq, emission_of_error hw hbegin]
      exact (Worker.begin?_eq_error hbegin).2.1.symm
    · rw [heq, emission_of_ok hw hbegin]
      exact Array.length_toList

/-- **An episode adds the tuples that it emits to the results of its worker**, and nothing to those
of the others. -/
theorem mem_results_execute {other : Nat} {w w' : Worker} (hw : c.workers[other]? = some w)
    (hw' : (c.execute task number order).2.workers[other]? = some w') {tuple : Tuple} :
    tuple ∈ w'.results ↔
      tuple ∈ w.results ∨ (number = other ∧ tuple ∈ c.emission task number order) := by
  cases hnumber : c.workers[number]? with
  | none =>
    rw [execute_of_none hnumber] at hw'
    obtain rfl := Option.some.inj (hw.symm.trans hw')
    simp [emission_of_none hnumber]
  | some x =>
    rcases execute_cases hnumber order with ⟨outcome, hbegin, heq⟩ | ⟨checkpoint, hbegin, heq⟩
    · rw [heq] at hw'
      obtain rfl := Option.some.inj (hw.symm.trans hw')
      -- Without anything to do, nothing is emitted and the results stay.
      simp [emission_of_error hnumber hbegin]
    · rw [heq, finish, Array.getElem?_setIfInBounds] at hw'
      rw [emission_of_ok hnumber hbegin]
      by_cases hother : number = other
      · subst hother
        obtain rfl := Option.some.inj (hw.symm.trans hnumber)
        rw [if_pos rfl, if_pos (Array.getElem?_eq_some_iff.1 hw).1] at hw'
        obtain rfl := Option.some.inj hw'
        rw [Worker.mem_finish_results, Array.mem_toList_iff]
        simp
      · -- The results of another worker are left alone.
        rw [if_neg hother] at hw'
        obtain rfl := Option.some.inj (hw.symm.trans hw')
        simp [hother]

end Emission

/-- What an entry of a schedule adds to the tuples emitted by a worker for an order. -/
def emissionOf (c : Crew) (task : Task) (number : Nat) (order : JoinOrder)
    (entry : Nat × JoinOrder) : List Tuple :=
  if entry = (number, order) then c.emission task number order else []

theorem emissionOf_of_eq_nil {number : Nat} {order : JoinOrder} {entry : Nat × JoinOrder}
    (h : c.emission task entry.1 entry.2 = []) : c.emissionOf task number order entry = [] := by
  unfold emissionOf
  split
  · rename_i heq
    subst heq
    exact h
  · rfl

theorem flatMap_episodesOf_cons (c : Crew) (task : Task) (number : Nat) (order : JoinOrder)
    (entry : Nat × JoinOrder) (rest : List (Nat × JoinOrder)) :
    (c.episodesOf task number order (entry :: rest)).flatMap Prod.snd =
      c.emissionOf task number order entry ++
        ((c.execute task entry.1 entry.2).2.episodesOf task number order rest).flatMap
          Prod.snd := by
  rw [episodesOf, List.flatMap_append]
  congr 1
  unfold emissionOf
  split
  · have hlength := c.length_emission task number order
    -- A worker that does not exist emits nothing.
    cases houtcome : (c.execute task number order).1 with
    | some outcome => simp
    | none =>
      rw [houtcome] at hlength
      exact (List.length_eq_zero_iff.1 hlength).symm
  · rfl

/-- What a worker has emitted for an order so far ascends and lies behind the point that the worker
has reached with the order. -/
structure HasPassed (c : Crew) (task : Task) (number : Nat) (order : JoinOrder)
    (tuples : List Tuple) : Prop where
  sorted : tuples.Pairwise fun a b => order.rowsOf a < order.rowsOf b
  behind : ∀ w, c.workers[number]? = some w → ∀ x ∈ tuples,
    (w.reached task.query order).finished = true ∨
      order.rowsOf x < order.rowsOf (w.reached task.query order).tuple

section Episode

variable (hp : p.Suits task) (hc : c.IsOrderly p task workers) {number : Nat} {order : JoinOrder}
  {tuples : List Tuple}

include hp hc

/-- **An episode of the order goes on behind everything emitted before.** -/
theorem HasPassed.finish (h : c.HasPassed task number order tuples) {w : Worker}
    (hw : c.workers[number]? = some w) (horder : order.IsPermutation task.query.nrTables)
    {checkpoint : Checkpoint} (hbegin : w.begin? task c.shared.progress order = .ok checkpoint) :
    (c.finish number w (c.shared.plans.plan order).2 (c.episode task w order)
      checkpoint).HasPassed task number order (tuples ++
        ((c.episode task w order).run checkpoint.tuple w.cursors).2.emitted.toList) := by
  obtain ⟨hunfinished, hle, hreached⟩ := hc.reached_finish hp hw horder hbegin
  have hascent := Episode.run_ascent (hc.isAscending_episode hp horder)
    (hc.fits_episode hp hw horder hbegin)
  have horder' := episode_order hc.shared w order
  generalize c.episode task w order = e at *
  subst horder'
  -- Everything emitted before lies behind the start of the episode.
  have hbefore : ∀ x ∈ tuples, e.order.rowsOf x < e.order.rowsOf checkpoint.tuple := by
    intro x hx
    rcases h.behind w hw x hx with hfinished | hlt
    · exact absurd (hunfinished.symm.trans hfinished) (by decide)
    · exact lt_of_lt_of_le hlt hle
  constructor
  · rw [List.pairwise_append]
    refine ⟨h.sorted, hascent.sorted, fun x hx y hy => ?_⟩
    exact lt_of_lt_of_le (hbefore x hx) (hascent.le_emitted y (Array.mem_toList_iff.1 hy))
  · intro w' hw' x hx
    rw [finish, Array.getElem?_setIfInBounds_self_of_lt (Array.getElem?_eq_some_iff.1 hw).1] at hw'
    obtain rfl := Option.some.inj hw'
    rw [hreached]
    cases hend : (e.run checkpoint.tuple w.cursors).1 with
    | none => exact Or.inl (by rw [Episode.stop, hend]; rfl)
    | some pos =>
      refine Or.inr ?_
      rcases List.mem_append.1 hx with hx | hx
      · exact lt_of_lt_of_le (hbefore x hx) (hascent.le pos hend)
      · exact hascent.lt pos hend x (Array.mem_toList_iff.1 hx)

/-- **Any episode keeps what the worker has emitted for the order in order**, and an episode of the
order adds what it emits. -/
theorem HasPassed.execute (h : c.HasPassed task number order tuples) {entry : Nat × JoinOrder}
    (horder : entry.2.IsPermutation task.query.nrTables) :
    (c.execute task entry.1 entry.2).2.HasPassed task number order
      (tuples ++ c.emissionOf task number order entry) := by
  cases hw : c.workers[entry.1]? with
  | none =>
    rw [execute_of_none hw, emissionOf_of_eq_nil (emission_of_none hw task _), List.append_nil]
    exact h
  | some w =>
    rcases execute_cases hw entry.2 with ⟨outcome, hbegin, heq⟩ | ⟨checkpoint, hbegin, heq⟩
    · rw [heq, emissionOf_of_eq_nil (emission_of_error hw hbegin), List.append_nil]
      exact h
    · rw [heq]
      by_cases hsame : entry = (number, order)
      · subst hsame
        rw [emissionOf, if_pos rfl, emission_of_ok hw hbegin]
        exact h.finish hp hc hw horder hbegin
      · rw [emissionOf, if_neg hsame, List.append_nil]
        -- Another episode adds nothing, but it may have moved the worker.
        refine ⟨h.sorted, fun w' hw' x hx => ?_⟩
        rcases getElem?_workers_finish hw' with ⟨hnumber, rfl⟩ | hw'
        · -- The worker has run another order.
          have hne : order ≠ (c.episode task w entry.2).order := by
            rw [episode_order hc.shared w entry.2]
            exact fun heq => hsame (Prod.ext hnumber.symm heq.symm)
          rw [Worker.reached_finish_of_ne hne]
          exact h.behind w (hnumber ▸ hw) x hx
        · exact h.behind w' hw' x hx

end Episode

/-! ### Schedules -/

/-- **What a worker has emitted for an order ascends after every schedule.** -/
theorem HasPassed.run (hp : p.Suits task) (hc : c.IsOrderly p task workers) {number : Nat}
    {order : JoinOrder} {tuples : List Tuple} (h : c.HasPassed task number order tuples)
    {schedule : List (Nat × JoinOrder)}
    (hschedule : ∀ entry ∈ schedule, entry.2.IsPermutation task.query.nrTables) :
    (c.run task schedule).HasPassed task number order
      (tuples ++ (c.episodesOf task number order schedule).flatMap Prod.snd) := by
  induction schedule generalizing c tuples with
  | nil => simpa [Crew.run, episodesOf] using h
  | cons entry rest ih =>
    have horder := hschedule entry List.mem_cons_self
    -- What the first episode emits has been passed when the others begin.
    have hrest := ih (hc.execute hp entry.1 horder) (h.execute hp hc horder)
      fun entry' hentry' => hschedule entry' (List.mem_cons_of_mem _ hentry')
    rw [List.append_assoc] at hrest
    rw [flatMap_episodesOf_cons]
    exact hrest

/-- **The results of a worker are what its episodes have emitted**, for whatever orders. -/
theorem mem_results_run {number : Nat} {w w' : Worker} (hw : c.workers[number]? = some w)
    {schedule : List (Nat × JoinOrder)}
    (hw' : (c.run task schedule).workers[number]? = some w') {tuple : Tuple} :
    tuple ∈ w'.results ↔ tuple ∈ w.results ∨
      ∃ order, tuple ∈ (c.episodesOf task number order schedule).flatMap Prod.snd := by
  induction schedule generalizing c w with
  | nil =>
    obtain rfl := Option.some.inj (hw.symm.trans hw')
    simp [episodesOf]
  | cons entry rest ih =>
    have hlt := (Array.getElem?_eq_some_iff.1 hw).1
    rw [← size_execute c task entry.1 entry.2] at hlt
    have hnext := Array.getElem?_eq_getElem hlt
    -- The first episode adds what it emits, and the rest adds what it emits from there on.
    rw [ih hnext hw', mem_results_execute hw hnext, or_assoc]
    apply or_congr_right
    simp only [flatMap_episodesOf_cons, List.mem_append, exists_or]
    apply or_congr_left
    unfold emissionOf
    constructor
    · rintro ⟨rfl, hmem⟩
      exact ⟨entry.2, by rwa [if_pos rfl]⟩
    · rintro ⟨order, hmem⟩
      split at hmem
      · rename_i heq
        subst heq
        exact ⟨rfl, hmem⟩
      · exact absurd hmem (by simp)

/-- The episodes of an order count what they emit. -/
theorem sum_nrResults_episodesOf (c : Crew) (task : Task) (number : Nat) (order : JoinOrder)
    (schedule : List (Nat × JoinOrder)) :
    ((c.episodesOf task number order schedule).map fun episode => episode.1.nrResults).sum =
      ((c.episodesOf task number order schedule).flatMap Prod.snd).length := by
  induction schedule generalizing c with
  | nil => rfl
  | cons entry rest ih =>
    rw [flatMap_episodesOf_cons, episodesOf, List.map_append, List.sum_append, List.length_append,
      ih]
    congr 1
    unfold emissionOf
    split
    · rw [length_emission]
      cases (c.execute task number order).1 <;> simp
    · rfl

end Crew

end AdaptiveJoin
