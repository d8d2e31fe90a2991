import AdaptiveJoin.Engine
import AdaptiveJoin.Proofs.Plan.Catalogs
import AdaptiveJoin.Proofs.Search.Liveness

/-!
# The search comes to an end

Nobody halts the search and episodes are not limited.  Then the workers can take a bounded number of
turns only, in whatever order they take them, and once all of them have stopped the result is
complete: every worker has stopped because it is, or because its shares of all tables are finished,
and in the latter case the shares of one table are all finished.

* `Team.IsLive.length_le`: the bound on the turns.
* `Team.IsLive.isFinished_of_isDone`: the result is complete once all workers have stopped.
* `Team.IsLive.rounds_finish`: rounds come to an end.
* `Team.search_finishes`: all of this for the search of a valid query.
-/

namespace AdaptiveJoin

namespace Team

variable {γ : Type}

/-- A worker takes part in the search. -/
def IsActive (t : Team γ) (number : Nat) : Prop :=
  ∃ s, t.searchers[number]? = some s ∧ s.stopped = false

variable [RandomSource γ]

/-- The team after some turns of a search that nobody halts. -/
def playOn (t : Team γ) (turns : List Nat) : Team γ := t.play (turns.map (false, ·))

/-- Some turns are all taken by workers that have not stopped by then. -/
def Takes (t : Team γ) : List Nat → Prop
  | [] => True
  | number :: rest => t.IsActive number ∧ (t.turn false number).Takes rest

variable {t : Team γ} {p : Planner} {task : Task} {workers number : Nat}

/-! ### Turns -/

/-- A worker that has stopped does nothing in its turn. -/
theorem turn_of_not_isActive (hidle : ¬t.IsActive number) (halted : Bool) :
    t.turn halted number = t := by
  unfold Team.turn
  cases hs : t.searchers[number]? with
  | none => rfl
  | some s =>
    have hstopped : s.stopped = true := by
      by_contra hactive
      exact hidle ⟨s, hs, Bool.not_eq_true _ ▸ hactive⟩
    exact if_pos hstopped

section Live

variable (hp : p.Drives task) (h : t.IsLive p task workers)

include hp h

theorem IsLive.exists_turnsTo {s : Searcher γ} (hs : t.searchers[number]? = some s)
    (hactive : s.stopped = false) : ∃ s', t.TurnsTo number s s' (t.turn false number) :=
  turn_step (h.task_eq ▸ hp.nrTables_le) (h.task_eq ▸ h.tree) h.isLinked hs hactive
    (h.isPaced number s hs) h.unlimited

/-- **A turn keeps the invariant.** -/
theorem IsLive.turn (number : Nat) : (t.turn false number).IsLive p task workers := by
  by_cases hactive : t.IsActive number
  · obtain ⟨s, hs, hactive⟩ := hactive
    obtain ⟨s', hturn⟩ := h.exists_turnsTo hp hs hactive
    exact h.of_turnsTo hp hs hturn
  · rwa [turn_of_not_isActive hactive]

/-- **A turn of a worker that has not stopped leaves fewer turns.** -/
theorem IsLive.turnsLeft_turn_lt (hactive : t.IsActive number) :
    (t.turn false number).turnsLeft < t.turnsLeft := by
  obtain ⟨s, hs, hactive⟩ := hactive
  obtain ⟨s', hturn⟩ := h.exists_turnsTo hp hs hactive
  exact h.turnsLeft_lt hp hs hturn hactive

theorem IsLive.turnsLeft_turn_le (number : Nat) :
    (t.turn false number).turnsLeft ≤ t.turnsLeft := by
  by_cases hactive : t.IsActive number
  · exact (h.turnsLeft_turn_lt hp hactive).le
  · rw [turn_of_not_isActive hactive]

/-- The turn of one worker does not stop another one. -/
theorem IsLive.isActive_turn {other : Nat} (hne : other ≠ number) (hactive : t.IsActive number) :
    (t.turn false other).IsActive number := by
  by_cases hother : t.IsActive other
  · obtain ⟨s, hs, hgoes⟩ := hother
    obtain ⟨s', hturn⟩ := h.exists_turnsTo hp hs hgoes
    unfold IsActive
    rw [hturn.searchers_eq, Array.getElem?_setIfInBounds_ne hne]
    exact hactive
  · rwa [turn_of_not_isActive hother]

/-! ### Runs -/

/-- **The invariant holds however the workers take turns.** -/
theorem IsLive.playOn (turns : List Nat) : (t.playOn turns).IsLive p task workers := by
  induction turns generalizing t with
  | nil => exact h
  | cons number rest ih => exact ih (h.turn hp number)

theorem IsLive.turnsLeft_playOn_le (turns : List Nat) :
    (t.playOn turns).turnsLeft ≤ t.turnsLeft := by
  induction turns generalizing t with
  | nil => exact le_refl _
  | cons number rest ih => exact (ih (h.turn hp number)).trans (h.turnsLeft_turn_le hp number)

/-- **Workers that have not stopped take a bounded number of turns**, whatever their order is. -/
theorem IsLive.length_le {turns : List Nat} (hturns : t.Takes turns) :
    turns.length ≤ t.turnsLeft := by
  induction turns generalizing t with
  | nil => exact Nat.zero_le _
  | cons number rest ih =>
    obtain ⟨hactive, hrest⟩ := hturns
    exact Nat.succ_le_of_lt
      ((ih (h.turn hp number) hrest).trans_lt (h.turnsLeft_turn_lt hp hactive))

/-- Turns among which is one of a worker that has not stopped leave fewer turns. -/
theorem IsLive.turnsLeft_playOn_lt {turns : List Nat} (hmem : number ∈ turns)
    (hactive : t.IsActive number) : (t.playOn turns).turnsLeft < t.turnsLeft := by
  induction turns generalizing t with
  | nil => exact absurd hmem (by simp)
  | cons other rest ih =>
    have hturn := h.turn hp other
    by_cases heq : other = number
    · subst heq
      exact (hturn.turnsLeft_playOn_le hp rest).trans_lt (h.turnsLeft_turn_lt hp hactive)
    · have hrest : number ∈ rest := (List.mem_cons.1 hmem).resolve_left (Ne.symm heq)
      exact (ih hturn hrest (h.isActive_turn hp heq hactive)).trans_le
        (h.turnsLeft_turn_le hp other)

/-! ### The end -/

omit hp [RandomSource γ] in
/-- As long as some worker has not stopped, one of the workers' numbers names it. -/
theorem IsLive.exists_isActive (hgoes : t.isDone = false) :
    ∃ number < workers, t.IsActive number := by
  unfold isDone at hgoes
  rw [Array.all_eq_false] at hgoes
  obtain ⟨number, hlt, hactive⟩ := hgoes
  exact ⟨number, h.size ▸ hlt, _, Array.getElem?_eq_getElem hlt, Bool.not_eq_true _ ▸ hactive⟩

omit [RandomSource γ] in
/-- **The result is complete once all workers have stopped.** -/
theorem IsLive.isFinished_of_isDone (hdone : t.isDone = true) :
    t.shared.progress.isFinished = true := by
  have hover : ∀ number < workers, t.IsOver number := by
    intro number hlt
    rw [← h.size] at hlt
    unfold isDone at hdone
    rw [Array.all_eq_true] at hdone
    exact h.isOver number _ (Array.getElem?_eq_getElem hlt) (hdone number hlt)
  by_contra hunfinished
  -- Then every worker has finished its share of the first table.
  refine hunfinished (h.crew.shared.isFor.isFinished_of_shares hp.nrTables_pos fun share hs => ?_)
  have hall := (hover share hs).resolve_left hunfinished
  rw [h.task_eq] at hall
  exact hall 0 hp.nrTables_pos

/-- **Rounds come to an end.** -/
theorem IsLive.rounds_finish (number : Nat) : ∃ t', t.rounds (fun _ => false) number = some t' ∧
    t'.IsLive p task workers ∧ t'.isDone = true := by
  induction hleft : t.turnsLeft using Nat.strong_induction_on generalizing t number with
  | _ left ih =>
    subst hleft
    rw [Team.rounds]
    split
    · rename_i hdone
      exact ⟨t, rfl, h, hdone⟩
    · rename_i hgoes
      -- As long as a searcher is active, a round lowers the number of turns that are left.
      obtain ⟨worker, hlt, hactive⟩ := h.exists_isActive (Bool.not_eq_true _ ▸ hgoes)
      have hround : t.round false = t.playOn (List.range workers) := by
        rw [round_eq_play, Team.playOn]
        show t.play ((List.range t.crew.shared.progress.workers).map _) = _
        rw [h.crew.shared.isFor.workers_eq]
      rw [hround]
      exact ih _ (h.turnsLeft_playOn_lt hp (List.mem_range.2 hlt) hactive)
        (h.playOn hp _) _ rfl

end Live

/-! ### The search of a query -/

section Query

variable {q : Query} {catalog : Catalog} {config : Config}

/-- The planner of a valid query drives its task. -/
theorem drives_planner (hvalid : q.validate = .ok ()) (hcatalog : catalog.IsBuiltFor q)
    (masks : Array (Option RowMask)) (config : Config) (workers : Nat) :
    (Crew.planner (.ofQuery q masks config) catalog workers).Drives (.ofQuery q masks config) where
  toSuits := Crew.suits_planner hvalid hcatalog masks config workers
  nrTables_le := (Query.isValid_of_validate hvalid).nrTables_le
  knowsEmptyTables := Task.knowsEmptyTables_ofQuery q masks config
  budget_pos := Nat.lt_of_lt_of_le Nat.one_pos (Nat.le_max_right config.budget.toNat 1)

omit [RandomSource γ] in
/-- **A team before its search comes to an end.** -/
theorem isLive_start (hq : q.IsValid) (hunlimited : config.maxEpisodes = none)
    (masks : Array (Option RowMask)) (catalog : Catalog) (source : Nat → γ) :
    (Team.start (.ofQuery q masks config) catalog config source).IsLive
      (Crew.planner (.ofQuery q masks config) catalog config.nrWorkers.toNat)
      (.ofQuery q masks config) (Progress.start q.rowCounts config.nrWorkers.toNat).workers := by
  have hstart {number : Nat} {s : Searcher γ} (hs : (Team.start (.ofQuery q masks config) catalog
      config source).searchers[number]? = some s) :
      s.stopped = false ∧ s.episodes = 0 ∧ 0 < s.nextForget := by
    obtain ⟨number, -, rfl⟩ := Option.map_eq_some_iff.1 (Array.getElem?_map.symm.trans hs)
    exact ⟨rfl, rfl, Nat.lt_of_lt_of_le Nat.one_pos (Nat.le_max_right _ _)⟩
  refine ⟨rfl, OrderTree.isFor_start q config, OrderTree.isLinked_start q config, ?_, ?_,
    hunlimited, fun number s hs _ _ => ?_, fun number s hs hstopped => ?_⟩
  · rw [crew_start]
    exact Crew.isLive_start hq
  · simp [Team.start, Shared.start, Task.ofQuery]
  · -- Nobody forgets before the first episode, and nobody has stopped.
    obtain ⟨-, hnone, hpos⟩ := hstart hs
    rwa [hnone]
  · exact absurd ((hstart hs).1.symm.trans hstopped) (by decide)

omit [RandomSource γ] in
/-- Before the search, all workers have all points of all orders ahead of them. -/
theorem turnsLeft_start (q : Query) (masks : Array (Option RowMask)) (catalog : Catalog)
    (config : Config) (source : Nat → γ) :
    (Team.start (.ofQuery q masks config) catalog config source).turnsLeft ≤
      (Team.start (.ofQuery q masks config) catalog config source).workers *
        (3 * q.nrAllPoints + 1) := by
  generalize ht : Team.start (.ofQuery q masks config) catalog config source = t
  have hsize : t.searchers.toList.length = t.workers := by
    subst ht
    simp [Team.start, Team.workers]
  have hle : ∀ left ∈ t.searchers.toList.map (·.turnsLeft t.task.query),
      left ≤ 3 * q.nrAllPoints + 1 := by
    intro left hleft
    obtain ⟨s, hs, rfl⟩ := List.mem_map.1 hleft
    subst ht
    obtain ⟨number, -, rfl⟩ := Array.mem_map.1 (Array.mem_toList_iff.1 hs)
    exact Nat.succ_le_succ (Nat.mul_le_mul_left 3 (Worker.work_le _ q))
  -- All searchers have the same bound on what they have left to do.
  have hsum := List.sum_le_card_nsmul _ _ hle
  rwa [List.length_map, hsize] at hsum

omit [RandomSource γ] in
theorem finished_result {t : Team γ} (h : t.shared.progress.isFinished = true) :
    (Engine.result t).finished = true := by
  show (t.task.hasEmptyTable || t.shared.progress.isFinished) = true
  rw [h, Bool.or_true]

/-- The rounds of a search that nobody halts come to an end, with a complete result. -/
theorem exists_run (hvalid : q.validate = .ok ()) (hcatalog : catalog.IsBuiltFor q)
    (hunlimited : config.maxEpisodes = none) (masks : Array (Option RowMask)) (source : Nat → γ) :
    ∃ t', (Team.start (.ofQuery q masks config) catalog config source).run (fun _ => false) =
      some t' ∧ t'.shared.progress.isFinished = true := by
  have hp := drives_planner hvalid hcatalog masks config config.nrWorkers.toNat
  have hstart := isLive_start (Query.isValid_of_validate hvalid) hunlimited masks catalog source
  obtain ⟨t', hrun, hlive, hdone⟩ := hstart.rounds_finish hp 0
  exact ⟨t', hrun, hlive.isFinished_of_isDone hp hdone⟩

/-- **The search always ends, with a complete result.**  While nobody halts the search of a valid
query and its episodes are not limited, workers that have not stopped can take a bounded number of
turns only, whatever is drawn, configured and learned and whatever the order of their turns is; once
all of them have stopped, the result is complete; and the rounds in which they take their turns come
to an end. -/
theorem search_finishes (hvalid : q.validate = .ok ()) (hcatalog : catalog.IsBuiltFor q)
    (hunlimited : config.maxEpisodes = none) (masks : Array (Option RowMask)) (source : Nat → γ) :
    let t := Team.start (.ofQuery q masks config) catalog config source
    (∀ turns, t.Takes turns → turns.length ≤ t.workers * (3 * q.nrAllPoints + 1)) ∧
    (∀ turns, (t.playOn turns).isDone = true →
      (t.playOn turns).shared.progress.isFinished = true ∧
        (Engine.result (t.playOn turns)).finished = true) ∧
    ∃ t', t.run (fun _ => false) = some t' ∧ t'.shared.progress.isFinished = true ∧
      (Engine.result t').finished = true := by
  intro t
  have hp := drives_planner hvalid hcatalog masks config config.nrWorkers.toNat
  have hstart := isLive_start (Query.isValid_of_validate hvalid) hunlimited masks catalog source
  refine ⟨fun turns hturns => ?_, fun turns hdone => ?_, ?_⟩
  · exact (hstart.length_le hp hturns).trans (turnsLeft_start q masks catalog config source)
  · have hfinished := (hstart.playOn hp turns).isFinished_of_isDone hp hdone
    exact ⟨hfinished, finished_result hfinished⟩
  · obtain ⟨t', hrun, hfinished⟩ := exists_run hvalid hcatalog hunlimited masks source
    exact ⟨t', hrun, hfinished, finished_result hfinished⟩

/-- Two workers, whose episodes have one step, with indexes and masks. -/
theorem search_finishes_sample :
    ∃ t', (Team.start .stepwise .sample { budget := 1, nrWorkers := 2 } fun number =>
        (⟨.ofNat number⟩ : SplitMix)).run (fun _ => false) = some t' ∧
      (Engine.result t').finished = true := by
  obtain ⟨-, -, t', hrun, -, hfinished⟩ := search_finishes Query.validate_sample
    Catalog.isBuiltFor_sample (rfl : ({ budget := 1, nrWorkers := 2 } : Config).maxEpisodes = none)
    Query.sampleMasks fun number => (⟨.ofNat number⟩ : SplitMix)
  exact ⟨t', hrun, hfinished⟩

end Query

end Team

end AdaptiveJoin
