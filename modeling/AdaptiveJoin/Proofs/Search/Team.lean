import AdaptiveJoin.Proofs.Crew.Schedule
import AdaptiveJoin.Proofs.Search.Sampling
import AdaptiveJoin.Search.Team

/-!
# Teams are crews

A team is a crew that chooses its orders by a search.  The workers of a team and what they share
make up the crew (`Team.crew`), and as the search executes permutations of all tables only, whatever
is known of crews and schedules holds of teams as well.

* `Team.IsSound.turn`: the turn of a worker keeps the invariant, halted or not.
* `Team.IsSound.play`: the invariant holds however the workers take turns.
* `Team.run_eq_play`: a search that ends has consisted of turns.
* `Team.mem_results_iff_of_isFinished`: the results of a finished team are those of the query.
-/

namespace AdaptiveJoin

namespace Team

variable {γ : Type}

/-- The workers of a team and what they share. -/
def crew (t : Team γ) : Crew := ⟨t.shared, t.searchers.map Searcher.worker⟩

/-- The invariant of a team. -/
structure IsSound (t : Team γ) (p : Planner) (task : Task) (workers : Nat) : Prop where
  task_eq : t.task = task
  tree : t.tree.IsFor task.query
  crew : t.crew.IsSound p task workers

/-- The invariant of a team while a searcher has its turn: the searcher takes its place when the
turn is over. -/
structure IsSoundWith (t : Team γ) (number : Nat) (s : Searcher γ) (p : Planner) (task : Task)
    (workers : Nat) : Prop where
  task_eq : t.task = task
  tree : t.tree.IsFor task.query
  crew : (⟨t.shared, t.crew.workers.setIfInBounds number s.worker⟩ : Crew).IsSound p task workers

variable {t : Team γ} {number : Nat} {s : Searcher γ} {p : Planner} {task : Task} {workers : Nat}

theorem getElem?_crew (hs : t.searchers[number]? = some s) :
    t.crew.workers[number]? = some s.worker := by
  unfold Team.crew
  rw [Array.getElem?_map, hs, Option.map_some]

/-- A searcher that takes its place with the worker that it has had changes nothing. -/
theorem map_worker_setIfInBounds (hs : t.searchers[number]? = some s) {s' : Searcher γ}
    (hworker : s'.worker = s.worker) :
    (t.searchers.setIfInBounds number s').map Searcher.worker = t.crew.workers := by
  obtain ⟨hlt, hself⟩ := Array.getElem?_eq_some_iff.1 (getElem?_crew hs)
  have hmap : (t.searchers.setIfInBounds number s').map Searcher.worker =
      t.crew.workers.setIfInBounds number s'.worker := Array.map_setIfInBounds
  rw [hmap, hworker, ← hself]
  simp [Array.setIfInBounds, hlt]

/-- The searcher whose turn it is stands for itself. -/
theorem IsSound.isSoundWith (h : t.IsSound p task workers) (hs : t.searchers[number]? = some s) :
    t.IsSoundWith number s p task workers := by
  refine ⟨h.task_eq, h.tree, ?_⟩
  have hcrew : (t.searchers.setIfInBounds number s).map Searcher.worker =
      t.crew.workers.setIfInBounds number s.worker := Array.map_setIfInBounds
  rw [← hcrew, map_worker_setIfInBounds hs rfl]
  exact h.crew

/-- A searcher whose turn is over takes its place. -/
theorem IsSoundWith.isSound (h : t.IsSoundWith number s p task workers) :
    ({ t with searchers := t.searchers.setIfInBounds number s } : Team γ).IsSound p task
      workers := by
  refine ⟨h.task_eq, h.tree, ?_⟩
  have hcrew : (t.searchers.setIfInBounds number s).map Searcher.worker =
      t.crew.workers.setIfInBounds number s.worker := Array.map_setIfInBounds
  show (⟨t.shared, (t.searchers.setIfInBounds number s).map Searcher.worker⟩ : Crew).IsSound p task
    workers
  rw [hcrew]
  exact h.crew

/-- What a searcher hands on keeps the invariant if it leaves the worker alone. -/
theorem IsSoundWith.congr (h : t.IsSoundWith number s p task workers) {s' : Searcher γ}
    (hworker : s'.worker = s.worker) : t.IsSoundWith number s' p task workers := by
  refine ⟨h.task_eq, h.tree, ?_⟩
  rw [hworker]
  exact h.crew

/-- A worker and what is shared make a sound crew together with the other workers. -/
def Completes (others : Array Worker) (number : Nat) (p : Planner) (task : Task) (workers : Nat)
    (x : Worker × Shared) : Prop :=
  (⟨x.2, others.setIfInBounds number x.1⟩ : Crew).IsSound p task workers

section Turn

variable (hp : p.Serves task workers) (hmasks : task.HasExactMasks)

include hp hmasks

/-- How a team executes an order keeps the invariant of the crew. -/
theorem execute_keeps {others : Array Worker} (hnumber : number < others.size) :
    OrderTree.Execute.Keeps (fun order (x : Worker × Shared) =>
      ((x.1.execute task x.2 order).1.reward, (x.1.execute task x.2 order).2)) task.query.nrTables
      (Completes others number p task workers) := by
  rintro order ⟨w, shared⟩ horder hcrew
  have hexecute := Crew.IsSound.execute hp hmasks hcrew number horder
  have hw : (others.setIfInBounds number w)[number]? = some w :=
    Array.getElem?_setIfInBounds_self_of_lt hnumber
  unfold Crew.execute at hexecute
  rw [hw] at hexecute
  dsimp only at hexecute
  rwa [Array.setIfInBounds_setIfInBounds] at hexecute

variable [RandomSource γ]

/-- **The episode of a searcher keeps the invariant.** -/
theorem IsSoundWith.episode (h : t.IsSoundWith number s p task workers)
    (hnumber : number < t.searchers.size) :
    (t.episode s).1.IsSoundWith number (t.episode s).2 p task workers := by
  obtain rfl := h.task_eq
  have hsize : number < t.crew.workers.size := by
    rwa [Team.crew, Array.size_map]
  have hworld : Completes t.crew.workers number p t.task workers (s.worker, t.shared) := h.crew
  have hsample : (t.sample s).2.Keeps t.task.query
      (Completes t.crew.workers number p t.task workers) :=
    OrderTree.sample_keeps hp.nrTables_le (execute_keeps hp hmasks hsize) h.tree _ _ hworld
  unfold Team.episode
  generalize t.sample s = sampled at hsample ⊢
  obtain ⟨reward?, r⟩ := sampled
  dsimp only at hsample ⊢
  have hsound {s' : Searcher γ} (hworker : s'.worker = r.world.1) :
      ({ t with tree := r.tree, shared := r.world.2 } : Team γ).IsSoundWith number s' p t.task
        workers := by
    refine ⟨rfl, hsample.tree, ?_⟩
    rw [hworker]
    exact hsample.world
  -- Whether the episode has executed an order or not, only the counts of the worker differ.
  split
  · exact hsound rfl
  · split <;> exact hsound rfl

omit [RandomSource γ] hp hmasks in
/-- **Forgetting keeps the invariant.** -/
theorem IsSoundWith.refresh (h : t.IsSoundWith number s p task workers) :
    (t.refresh s).1.IsSoundWith number (t.refresh s).2 p task workers := by
  unfold Team.refresh
  have hforgotten {s' : Searcher γ} (hworker : s'.worker = s.worker) :
      ({ t with tree := t.tree.forget s.worker.number } : Team γ).IsSoundWith number s' p task
        workers := by
    refine ⟨h.task_eq, h.tree.forget _, ?_⟩
    rw [hworker]
    exact h.crew
  split
  · dsimp only
    split <;> exact hforgotten rfl
  · exact h

/-- **The turn of a worker keeps the invariant**, whether the search is halted or not. -/
theorem IsSound.turn (h : t.IsSound p task workers) (halted : Bool) (number : Nat) :
    (t.turn halted number).IsSound p task workers := by
  unfold Team.turn
  split
  · exact h
  · rename_i s hs
    have hwith := h.isSoundWith hs
    have hnumber := (Array.getElem?_eq_some_iff.1 hs).1
    split
    · exact h
    · dsimp only
      have hclaimed : ({ t with claimed := t.claimed + 1 } : Team γ).IsSoundWith number s p task
          workers := ⟨hwith.task_eq, hwith.tree, hwith.crew⟩
      apply IsSoundWith.isSound
      split
      · -- A searcher that is halted, or that asks for one episode too many, stops and keeps what it
        -- has found.
        exact hwith.congr rfl
      · split
        · exact hclaimed.congr rfl
        · exact (hclaimed.episode hp hmasks hnumber).refresh

end Turn

/-! ### Runs -/

/-- The team after some turns: for each of them, whether the search is halted and whose turn it
is. -/
def play [RandomSource γ] (t : Team γ) (turns : List (Bool × Nat)) : Team γ :=
  turns.foldl (fun t turn => t.turn turn.1 turn.2) t

/-- **The invariant holds however the workers take turns.** -/
theorem IsSound.play [RandomSource γ] (hp : p.Serves task workers) (hmasks : task.HasExactMasks)
    (h : t.IsSound p task workers) (turns : List (Bool × Nat)) :
    (t.play turns).IsSound p task workers := by
  induction turns generalizing t with
  | nil => exact h
  | cons turn rest ih => exact ih (h.turn hp hmasks turn.1 turn.2)

/-- A round consists of turns. -/
theorem round_eq_play [RandomSource γ] (t : Team γ) (halted : Bool) :
    t.round halted = t.play ((List.range t.workers).map fun number => (halted, number)) := by
  unfold Team.round play
  rw [List.foldl_map]

/-- **A search that ends has consisted of turns.** -/
theorem run_eq_play [RandomSource γ] {halt : Nat → Bool} {t' : Team γ}
    (h : t.run halt = some t') : ∃ turns, t' = t.play turns := by
  refine Team.rounds.partial_correctness halt (fun _ t t' => ∃ turns, t' = t.play turns) ?_ 0 t t' h
  intro rounds ih number t t' h
  split at h
  · exact ⟨[], (Option.some.inj h).symm⟩
  · obtain ⟨turns, rfl⟩ := ih _ _ _ h
    rw [round_eq_play]
    exact ⟨_, (List.foldl_append ..).symm⟩

/-- The crew of a team before its search has run nothing. -/
theorem crew_start (task : Task) (catalog : Catalog) (config : Config) (source : Nat → γ) :
    (Team.start task catalog config source).crew =
      .start task catalog config.nrWorkers.toNat := by
  unfold Team.start Team.crew Crew.start
  simp only [Array.map_map]
  rfl

/-- **A team before its search is sound.** -/
theorem isSound_start {q : Query} (hq : q.IsValid) (masks : Array (Option RowMask))
    (catalog : Catalog) (config : Config) (source : Nat → γ) :
    (Team.start (.ofQuery q masks config) catalog config source).IsSound
      (Crew.planner (.ofQuery q masks config) catalog config.nrWorkers.toNat)
      (.ofQuery q masks config) (Progress.start q.rowCounts config.nrWorkers.toNat).workers where
  task_eq := rfl
  tree := OrderTree.isFor_start q config
  crew := by
    rw [crew_start]
    exact Crew.isSound_start hq

/-! ### Results -/

theorem mem_foldl_results (searchers : List (Searcher γ)) (all : Std.HashSet Tuple)
    (tuple : Tuple) :
    tuple ∈ searchers.foldl (fun all s => s.worker.results.fold (fun all x => all.insert x) all)
      all ↔ tuple ∈ all ∨ ∃ s ∈ searchers, tuple ∈ s.worker.results := by
  induction searchers generalizing all with
  | nil => simp
  | cons s rest ih =>
    rw [List.foldl_cons, ih, Std.HashSet.fold_eq_foldl_toList, Worker.mem_foldl_insert,
      Std.HashSet.mem_toList, or_assoc]
    simp only [List.mem_cons, or_and_right, exists_or, exists_eq_left]

/-- The results of a team are what its workers have found. -/
theorem mem_results {tuple : Tuple} : tuple ∈ t.results ↔ t.crew.Found tuple := by
  unfold Team.results
  rw [← Array.foldl_toList, mem_foldl_results]
  constructor
  · rintro (hnone | ⟨s, hs, htuple⟩)
    · exact absurd hnone Std.HashSet.not_mem_empty
    · obtain ⟨number, hnumber⟩ := List.mem_iff_getElem?.1 hs
      rw [Array.getElem?_toList] at hnumber
      exact ⟨number, s.worker, getElem?_crew hnumber, htuple⟩
  · rintro ⟨number, w, hw, htuple⟩
    unfold Team.crew at hw
    rw [Array.getElem?_map] at hw
    obtain ⟨s, hs, rfl⟩ := Option.map_eq_some_iff.1 hw
    exact Or.inr ⟨s, Array.mem_toList_iff.2 (Array.mem_of_getElem? hs), htuple⟩

/-- **A team finds results only.** -/
theorem IsSound.isResult (h : t.IsSound p task workers) {tuple : Tuple} (ht : tuple ∈ t.results) :
    task.query.IsResult tuple :=
  h.crew.isResult tuple (mem_results.1 ht)

/-- **A finished team has found all results.** -/
theorem IsSound.mem_results_iff_of_isFinished (h : t.IsSound p task workers)
    (hempty : task.KnowsEmptyTables) (hfinished : t.isFinished = true) {tuple : Tuple} :
    tuple ∈ t.results ↔ task.query.IsResult tuple := by
  unfold Team.isFinished at hfinished
  rw [h.task_eq, Bool.or_eq_true] at hfinished
  rcases hfinished with hnone | hfinished
  · -- A query over an empty table has no results.
    obtain ⟨table, ht, hzero⟩ := hempty.1 hnone
    refine ⟨h.isResult, fun hresult => ?_⟩
    have hlt := hresult.1.2 table ht
    omega
  · rw [mem_results]
    exact h.crew.found_iff_of_isFinished hfinished

end Team

end AdaptiveJoin
