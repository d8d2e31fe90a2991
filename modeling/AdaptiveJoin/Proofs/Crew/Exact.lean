import Mathlib.Data.Finset.Card
import AdaptiveJoin.Proofs.Crew.Advance

/-!
# Schedules are exact

The workers of a query run episodes in some order, each of some join order, and go on from where
they have come to with it.

* `Crew.schedule_exact`: whatever the schedule is, the crew finds results only, and all of them once
  some table is finished.
* `Crew.emissions_ascending`: over every schedule, a worker emits the tuples of an order in
  ascending order, and so counts each of them once.

The sample schedule lets two workers alternate between two orders in steps, until enough episodes
have finished the join (`Crew.isFinished_run`).
-/

namespace AdaptiveJoin

namespace Crew

/-- The invariant holds after every schedule of a query. -/
theorem isSound_run {q : Query} (hvalid : q.validate = .ok ()) (hbuilt : q.Built)
    (hsmall : q.HasSmallTables) (hexact : q.HasExactConstants) {catalog : Catalog}
    (hcatalog : catalog.IsBuiltFor q) {masks : Array (Option RowMask)} {config : Config}
    (hmasks : (Task.ofQuery q masks config).HasExactMasks) (workers : Nat)
    {schedule : List (Nat × JoinOrder)}
    (hschedule : ∀ entry ∈ schedule, entry.2.IsPermutation q.nrTables) :
    ((start (.ofQuery q masks config) catalog workers).run (.ofQuery q masks config)
      schedule).IsSound (planner (.ofQuery q masks config) catalog workers)
        (.ofQuery q masks config) (Progress.start q.rowCounts workers).workers :=
  (isSound_start (Query.isValid_of_validate hvalid)).run
    (serves_planner hvalid hbuilt
      (hasCompleteLookups_planner hbuilt hsmall hexact hcatalog masks config workers))
    hmasks hschedule

/-! ### A sample schedule -/

/-- Two workers alternate between two orders. -/
def sampleSchedule : List (Nat × JoinOrder) :=
  (List.replicate 15 [(0, .sample), (1, .reversed), (1, .sample), (0, .reversed)]).flatten

theorem isPermutation_sampleSchedule :
    ∀ entry ∈ sampleSchedule, entry.2.IsPermutation Query.sample.nrTables := by
  decide +kernel

/-- The crew of the sample query after the sample schedule, in episodes of one step. -/
def sampleRun : Crew := (start .stepwise .sample 2).run .stepwise sampleSchedule

/-- Each worker has as many episodes of the first order as there are tuples of rows. -/
theorem isFinished_sampleRun : sampleRun.shared.progress.isFinished = true := by
  have hcount : ∀ number < 2, 15 ≤ sampleSchedule.count (number, .sample) := by decide +kernel
  unfold sampleRun Task.stepwise
  exact isFinished_run Query.validate_sample (by decide) Catalog.isBuiltFor_sample Query.sampleMasks
    _ 2 isPermutation_sampleSchedule JoinOrder.isPermutation_sample hcount

/-! ### What a schedule finds -/

/-- **Switching between join orders is exact.**  Whatever episodes the workers of a valid query have
run, of whatever orders, they have found results only; and once some table is finished they have
found the whole result. -/
theorem schedule_exact {q : Query} (hvalid : q.validate = .ok ()) (hbuilt : q.Built)
    (hsmall : q.HasSmallTables) (hexact : q.HasExactConstants) {catalog : Catalog}
    (hcatalog : catalog.IsBuiltFor q) {masks : Array (Option RowMask)} {config : Config}
    (hmasks : (Task.ofQuery q masks config).HasExactMasks) (workers : Nat)
    {schedule : List (Nat × JoinOrder)}
    (hschedule : ∀ entry ∈ schedule, entry.2.IsPermutation q.nrTables) :
    let task := Task.ofQuery q masks config
    let c := (start task catalog workers).run task schedule
    (∀ (number : Nat) (w : Worker), c.workers[number]? = some w → ∀ tuple ∈ w.results,
      (∀ predicate ∈ q.predicates, predicate.eval tuple = .holds) ∧
        tuple.size = q.nrTables ∧ ∀ table < q.nrTables, tuple.row table < q.cardinality table) ∧
    (c.shared.progress.isFinished = true → ∀ tuple,
      (∃ (number : Nat) (w : Worker), c.workers[number]? = some w ∧ tuple ∈ w.results) ↔
        tuple ∈ q.nestedLoopJoin) := by
  intro task c
  have hc : c.IsSound (planner task catalog workers) task
      (Progress.start q.rowCounts workers).workers :=
    isSound_run hvalid hbuilt hsmall hexact hcatalog hmasks workers hschedule
  constructor
  · -- Tuples that are found are results at any time.
    intro number w hw tuple hmem
    have hr := hc.isResult tuple ⟨number, w, hw, hmem⟩
    exact ⟨hr.2, hr.1⟩
  · intro hfinished tuple
    -- A finished table has offsets beyond all its rows, so they are settled.
    rw [Query.mem_nestedLoopJoin]
    exact hc.found_iff_of_isFinished hfinished

theorem schedule_exact_sample :
    (∀ entry ∈ sampleSchedule, entry.2.IsPermutation Query.sample.nrTables) ∧
      sampleRun.shared.progress.isFinished = true ∧
      ∀ tuple, sampleRun.Found tuple ↔ tuple ∈ [#[0, 0], #[0, 2], #[1, 0], #[1, 2]] := by
  refine ⟨isPermutation_sampleSchedule, isFinished_sampleRun, fun tuple => ?_⟩
  have hexact := (schedule_exact Query.validate_sample Query.built_sample
    Query.hasSmallTables_sample Query.hasExactConstants_sample Catalog.isBuiltFor_sample
    (Task.hasExactMasks_sample { budget := 1 }) 2 isPermutation_sampleSchedule).2
  have hfinished := isFinished_sampleRun
  rw [← Query.nestedLoopJoin_sample]
  unfold sampleRun Task.stepwise at *
  exact hexact hfinished tuple

/-! ### What a schedule emits -/

/-- **No tuple is emitted twice by the same worker for the same order.**  Whatever episodes the
workers of a valid query run, of whatever orders: the tuples that one worker emits in its episodes
of one order ascend in the order of the loops, so the results that these episodes count are as many
as the distinct tuples that they emit. -/
theorem emissions_ascending {q : Query} (hvalid : q.validate = .ok ()) {catalog : Catalog}
    (hcatalog : catalog.IsBuiltFor q) (masks : Array (Option RowMask)) (config : Config)
    (workers : Nat) {schedule : List (Nat × JoinOrder)}
    (hschedule : ∀ entry ∈ schedule, entry.2.IsPermutation q.nrTables) (number : Nat)
    (order : JoinOrder) :
    let task := Task.ofQuery q masks config
    let episodes := (start task catalog workers).episodesOf task number order schedule
    (episodes.flatMap Prod.snd).Pairwise (fun a b => order.rowsOf a < order.rowsOf b) ∧
      (episodes.map fun episode => episode.1.nrResults).sum =
        (episodes.flatMap Prod.snd).toFinset.card := by
  intro task episodes
  have hp := suits_planner hvalid hcatalog masks config workers
  have hc : (start task catalog workers).IsOrderly _ task _ :=
    isOrderly_start (Query.isValid_of_validate hvalid)
  have hstart : (start task catalog workers).HasPassed task number order [] :=
    ⟨List.Pairwise.nil, fun _ _ x hx => absurd hx (by simp)⟩
  have hsorted := (hstart.run hp hc hschedule).sorted
  rw [List.nil_append] at hsorted
  refine ⟨hsorted, (sum_nrResults_episodesOf _ task number order schedule).trans ?_⟩
  -- Tuples in ascending order are distinct, so the counts add up to their number.
  have hnodup : (episodes.flatMap Prod.snd).Nodup :=
    hsorted.imp fun hlt heq => absurd (heq ▸ hlt) (lt_irrefl _)
  exact (List.toFinset_card_of_nodup hnodup).symm

/-- What the workers have found is what they have emitted. -/
theorem found_run_iff {task : Task} {catalog : Catalog} {workers : Nat}
    {schedule : List (Nat × JoinOrder)} {tuple : Tuple} :
    ((start task catalog workers).run task schedule).Found tuple ↔ ∃ number order, tuple ∈
      ((start task catalog workers).episodesOf task number order schedule).flatMap Prod.snd := by
  constructor
  · rintro ⟨number, w, hw, hmem⟩
    have hlt := (Array.getElem?_eq_some_iff.1 hw).1
    rw [size_run] at hlt
    have hstart := Array.getElem?_eq_getElem hlt
    have hnone := (getElem?_start_workers task catalog workers hstart).2
    -- The workers start without results.
    obtain hmem | ⟨order, hmem⟩ := (mem_results_run hstart hw).1 hmem
    · rw [hnone] at hmem
      exact absurd hmem (by simp [Worker.start])
    · exact ⟨number, order, hmem⟩
  · rintro ⟨number, order, hmem⟩
    by_cases hlt : number < (start task catalog workers).workers.size
    · have hstart := Array.getElem?_eq_getElem hlt
      rw [← size_run _ task schedule] at hlt
      have hw := Array.getElem?_eq_getElem hlt
      exact ⟨number, _, hw, (mem_results_run hstart hw).2 (Or.inr ⟨order, hmem⟩)⟩
    · rw [episodesOf_of_none (Array.getElem?_eq_none (Nat.not_lt.1 hlt))] at hmem
      exact absurd hmem List.not_mem_nil

theorem emissions_ascending_sample :
    (∀ entry ∈ sampleSchedule, entry.2.IsPermutation Query.sample.nrTables) ∧
      (∀ number order, let episodes :=
          (start .stepwise .sample 2).episodesOf .stepwise number order sampleSchedule
        (episodes.flatMap Prod.snd).Pairwise (fun a b => order.rowsOf a < order.rowsOf b) ∧
          (episodes.map fun episode => episode.1.nrResults).sum =
            (episodes.flatMap Prod.snd).toFinset.card) ∧
      ∀ tuple, (∃ number order, tuple ∈ ((start .stepwise .sample 2).episodesOf .stepwise number
          order sampleSchedule).flatMap Prod.snd) ↔
        tuple ∈ [#[0, 0], #[0, 2], #[1, 0], #[1, 2]] := by
  refine ⟨isPermutation_sampleSchedule, fun number order => ?_, fun tuple => ?_⟩
  · exact emissions_ascending Query.validate_sample Catalog.isBuiltFor_sample Query.sampleMasks
      { budget := 1 } 2 isPermutation_sampleSchedule number order
  · -- The schedule finishes the join, so that all results have been emitted.
    have hsound := isSound_run Query.validate_sample Query.built_sample
      Query.hasSmallTables_sample Query.hasExactConstants_sample Catalog.isBuiltFor_sample
      (Task.hasExactMasks_sample { budget := 1 }) 2 isPermutation_sampleSchedule
    have hfinished := isFinished_sampleRun
    rw [← found_run_iff, ← Query.nestedLoopJoin_sample, Query.mem_nestedLoopJoin]
    unfold sampleRun Task.stepwise at *
    exact hsound.found_iff_of_isFinished hfinished

end Crew

end AdaptiveJoin
