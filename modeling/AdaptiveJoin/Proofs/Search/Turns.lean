import AdaptiveJoin.Proofs.Score
import AdaptiveJoin.Proofs.Search.Complete
import AdaptiveJoin.Proofs.Search.Team

/-!
# What a turn does

`Team.Step` lists everything that a turn of a searcher can do while nobody halts the search and
episodes are not limited: the searcher stops because the result is complete, it executes an
admissible order, it drops rules that leave no admissible order, or it gives up because there is
none without rules either.

Rules may come back when the searcher forgets.  `Searcher.delay` counts the turns that a searcher
can lose in a row by dropping them: the next time to forget is always ahead (`Searcher.IsPaced`),
and ten times as far afterwards.

* `Team.episode_cases`, `Team.refresh_cases`: what an episode and the refresh after it do.
* `Team.turn_step`: a turn is a step.
-/

namespace AdaptiveJoin

namespace Searcher

variable {γ : Type}

/-- A searcher that goes on forgets later only. -/
def IsPaced (s : Searcher γ) (config : Config) : Prop :=
  s.stopped = false → config.forget = true → s.episodes < s.nextForget

/-- The number of turns in a row in which a searcher can do no more than drop rules. -/
def delay (s : Searcher γ) : Nat :=
  if s.rules.isEmpty then 0 else if s.episodes + 1 < s.nextForget then 1 else 2

variable {s : Searcher γ}

theorem delay_le (s : Searcher γ) : s.delay ≤ 2 := by
  unfold delay
  split
  · omega
  · split <;> omega

theorem delay_eq_zero (hrules : s.rules = []) : s.delay = 0 := by
  rw [delay, hrules, List.isEmpty_nil, if_pos rfl]

theorem delay_pos (hrules : s.rules ≠ []) : 0 < s.delay := by
  rw [delay, if_neg (by rwa [List.isEmpty_iff])]
  split <;> omega

theorem delay_le_one (h : s.episodes + 1 < s.nextForget) : s.delay ≤ 1 := by
  rw [delay, if_pos h]
  split <;> omega

theorem delay_eq_two (hrules : s.rules ≠ []) (h : s.nextForget ≤ s.episodes + 1) :
    s.delay = 2 := by
  rw [delay, if_neg (by rwa [List.isEmpty_iff]), if_neg (by omega)]

end Searcher

namespace Team

variable {γ : Type} {t : Team γ} {s : Searcher γ} {number : Nat}

/-- What the episodes of a searcher are kept to. -/
def limits (t : Team γ) (s : Searcher γ) : OrderTree.Limits :=
  ⟨s.worker.number, s.rules, t.exhaustedRoots s.worker.number⟩

/-- A searcher may sample an order. -/
def Admits (t : Team γ) (s : Searcher γ) (order : JoinOrder) : Prop :=
  order.IsAdmissible (t.limits s) t.task.query.nrTables

/-- What a turn of a searcher does to the crew of a team and to the searcher. -/
inductive Step (t : Team γ) (number : Nat) (s : Searcher γ) (crew' : Crew) (s' : Searcher γ) :
    Prop where
  /-- The result is complete. -/
  | ends (hfinished : t.shared.progress.isFinished = true) (hstopped : s'.stopped = true)
      (hcrew : crew' = t.crew)
  /-- An admissible order is executed. -/
  | executes (hunfinished : t.shared.progress.isFinished = false) {order : JoinOrder}
      (horder : t.Admits s order) (hstopped : s'.stopped = false)
      (hcrew : crew' = (t.crew.execute t.task number order).2)
  /-- The rules leave no admissible order. -/
  | drops (hnone : ∀ order, ¬t.Admits s order) (hstopped : s'.stopped = false)
      (hcrew : crew' = t.crew) (hdelay : s'.delay < s.delay)
  /-- No order is admissible. -/
  | givesUp (hrules : s.rules = []) (hnone : ∀ order, ¬t.Admits s order)
      (hstopped : s'.stopped = true) (hcrew : crew' = t.crew)

/-- A turn of a searcher leads to another team. -/
structure TurnsTo (t : Team γ) (number : Nat) (s s' : Searcher γ) (t' : Team γ) : Prop where
  task_eq : t'.task = t.task
  config_eq : t'.config = t.config
  tree : t'.tree.IsFor t.task.query
  isLinked : t'.tree.IsLinked
  searchers_eq : t'.searchers = t.searchers.setIfInBounds number s'
  isPaced : s'.IsPaced t.config
  step : t.Step number s t'.crew s'

variable [RandomSource γ]

/-! ### Episodes -/

section Episode

variable (hle : t.task.query.nrTables ≤ maxTables) (hfor : t.tree.IsFor t.task.query)
  (hlinked : t.tree.IsLinked)

include hle hfor hlinked

/-- **A sample executes an admissible order, or there is none** and it changes nothing but the
tree. -/
theorem sample_cases (s : Searcher γ) :
    (t.sample s).2.tree.IsFor t.task.query ∧ (t.sample s).2.tree.IsLinked ∧
      ((∃ order, t.Admits s order ∧
        (t.sample s).1 = some (s.worker.execute t.task t.shared order).1.reward ∧
          (t.sample s).2.world = (s.worker.execute t.task t.shared order).2) ∨
      ((∀ order, ¬t.Admits s order) ∧ (t.sample s).1 = none ∧
        (t.sample s).2.world = (s.worker, t.shared))) := by
  let run : OrderTree.Execute (Worker × Shared) := fun order x =>
    ((x.1.execute t.task x.2 order).1.reward, (x.1.execute t.task x.2 order).2)
  -- Scores are not negative, so the search takes every order that is executed.
  have hrun (order : JoinOrder) (x : Worker × Shared) : ¬(run order x).1 < 0 :=
    (zero_le_iff.1 (x.1.zero_le_reward t.task x.2 order)).2
  have hgrown := (OrderTree.grows_invariant hle run t.tree).sample hle (t.limits s) s.source
    (s.worker, t.shared) ⟨hfor, hlinked, .refl _⟩
  refine ⟨hgrown.1, hgrown.2.1, ?_⟩
  rcases OrderTree.sample_answers hle hfor hlinked hrun (t.limits s) s.source (s.worker, t.shared)
    with ⟨-, order, horder, hreward, hworld⟩ | ⟨hcannot, hfails⟩
  · exact Or.inl ⟨order, horder, hreward, hworld⟩
  · rw [OrderTree.Limits.canComplete_nil_iff, not_exists] at hcannot
    exact Or.inr ⟨hcannot, hfails.answer, hfails.world⟩

/-- **An episode executes an admissible order, or there is none** and the searcher drops its rules
or stops. -/
theorem episode_cases (s : Searcher γ) :
    ∃ (tree : OrderTree) (source : γ), tree.IsFor t.task.query ∧ tree.IsLinked ∧
      ((∃ order, t.Admits s order ∧ t.episode s =
        ({ t with tree := tree, shared := (s.worker.execute t.task t.shared order).2.2 },
          { s with
            worker := (s.worker.execute t.task t.shared order).2.1
            source := source
            episodes := s.episodes + 1 })) ∨
      ((∀ order, ¬t.Admits s order) ∧ t.episode s =
        ({ t with tree := tree },
          { s with
            source := source
            rules := []
            episodes := s.episodes + 1
            stopped := s.stopped || s.rules.isEmpty }))) := by
  obtain ⟨htree, hlinked', hcases⟩ := sample_cases hle hfor hlinked s
  unfold Team.episode
  generalize t.sample s = sampled at htree hlinked' hcases ⊢
  obtain ⟨reward?, tree, source, canExpand, world⟩ := sampled
  refine ⟨tree, source, htree, hlinked', ?_⟩
  rcases hcases with ⟨order, horder, rfl, rfl⟩ | ⟨hnone, rfl, rfl⟩
  · -- A reward that is not negative tells that an order has been executed.
    have hreward := s.worker.zero_le_reward t.task t.shared order
    exact Or.inl ⟨order, horder, if_pos (decide_eq_true hreward)⟩
  · refine Or.inr ⟨hnone, (if_neg Bool.false_ne_true).trans ?_⟩
    split
    · -- Without rules that could be dropped, the worker gives up.
      rename_i hrules
      rw [hrules, Bool.or_true, List.isEmpty_iff.1 hrules]
    · rename_i hrules
      rw [Bool.eq_false_iff.2 hrules, Bool.or_false]

end Episode

omit [RandomSource γ] in
/-- A searcher goes on as it is, or it forgets and is given rules. -/
theorem refresh_cases (t : Team γ) (s : Searcher γ) :
    (t.refresh s = (t, s) ∧ s.IsPaced t.config) ∨
    ∃ rules, t.refresh s =
        ({ t with tree := t.tree.forget s.worker.number },
          { s with nextForget := s.nextForget * 10, rules := rules }) ∧
      t.config.forget = true ∧ s.nextForget ≤ s.episodes := by
  unfold Team.refresh
  split
  · rename_i hcome
    simp only [Bool.and_eq_true, Bool.not_eq_true', decide_eq_true_eq] at hcome
    -- It has come to forgetting; with or without a part of the orders the rest of the searcher is
    -- the same.
    refine Or.inr ?_
    dsimp only
    split
    · exact ⟨_, rfl, hcome.1.2, hcome.2⟩
    · exact ⟨s.rules, rfl, hcome.1.2, hcome.2⟩
  · rename_i hcome
    refine Or.inl ⟨rfl, fun hstopped hforget => ?_⟩
    simp only [hstopped, hforget, Bool.not_false, Bool.true_and, decide_eq_true_eq] at hcome
    omega

/-! ### Turns -/

omit [RandomSource γ] in
/-- The crew after a searcher has left its worker as it was. -/
theorem crew_same (hs : t.searchers[number]? = some s) {s' : Searcher γ}
    (hworker : s'.worker = s.worker) :
    (⟨t.shared, (t.searchers.setIfInBounds number s').map Searcher.worker⟩ : Crew) = t.crew := by
  rw [map_worker_setIfInBounds hs hworker]
  rfl

omit [RandomSource γ] in
/-- The crew after a searcher has executed an order. -/
theorem crew_execute (hs : t.searchers[number]? = some s) {order : JoinOrder} {s' : Searcher γ}
    (hworker : s'.worker = (s.worker.execute t.task t.shared order).2.1) :
    (⟨(s.worker.execute t.task t.shared order).2.2,
      (t.searchers.setIfInBounds number s').map Searcher.worker⟩ : Crew) =
        (t.crew.execute t.task number order).2 := by
  unfold Crew.execute
  rw [getElem?_crew hs, Array.map_setIfInBounds, hworker]
  rfl

omit [RandomSource γ] in
/-- A turn ends with a refresh, which leaves the worker and what is shared alone.  The rules that a
searcher is given come with more time. -/
theorem turnsTo_refresh {t₁ : Team γ} {s₁ : Searcher γ} (htask : t₁.task = t.task)
    (hconfig : t₁.config = t.config) (hfor : t₁.tree.IsFor t.task.query)
    (hlinked : t₁.tree.IsLinked) (hsearchers : t₁.searchers = t.searchers)
    (hahead : t.config.forget = true → s₁.episodes + 1 < s₁.nextForget * 10)
    (hstep : ∀ s', s'.worker = s₁.worker → s'.stopped = s₁.stopped →
      s' = s₁ ∨ (s₁.nextForget ≤ s₁.episodes ∧ s'.delay ≤ 1) →
        t.Step number s ⟨t₁.shared, (t.searchers.setIfInBounds number s').map Searcher.worker⟩ s') :
    ∃ s', t.TurnsTo number s s'
      { (t₁.refresh s₁).1 with
        searchers := (t₁.refresh s₁).1.searchers.setIfInBounds number (t₁.refresh s₁).2 } := by
  rcases refresh_cases t₁ s₁ with ⟨hsame, hpaced⟩ | ⟨rules, hforgets, hforget, hcome⟩
  · rw [hsame]
    refine ⟨s₁, htask, hconfig, hfor, hlinked, by rw [hsearchers], hconfig ▸ hpaced, ?_⟩
    rw [hsearchers]
    exact hstep s₁ rfl rfl (Or.inl rfl)
  · rw [hforgets]
    -- The next time to forget lies ahead, as it grows tenfold.
    have hlater := hahead (hconfig ▸ hforget)
    refine ⟨_, htask, hconfig, hfor.forget _, hlinked.forget _, by rw [hsearchers],
      fun _ _ => Nat.lt_of_succ_lt hlater, ?_⟩
    rw [hsearchers]
    exact hstep _ rfl rfl (Or.inr ⟨hcome, Searcher.delay_le_one hlater⟩)

/-- **A turn is a step.** -/
theorem turn_step (hle : t.task.query.nrTables ≤ maxTables) (hfor : t.tree.IsFor t.task.query)
    (hlinked : t.tree.IsLinked) (hs : t.searchers[number]? = some s) (hactive : s.stopped = false)
    (hpaced : s.IsPaced t.config) (hunlimited : t.config.maxEpisodes = none) :
    ∃ s', t.TurnsTo number s s' (t.turn false number) := by
  have hlimit : t.limitReached = false := by
    unfold limitReached
    rw [hunlimited, Option.any_none]
  have hahead (hforget : t.config.forget = true) : s.episodes + 1 + 1 < s.nextForget * 10 := by
    have := hpaced hactive hforget
    omega
  unfold Team.turn
  rw [hs]
  dsimp only
  rw [hactive, Bool.false_or, hlimit, if_neg Bool.false_ne_true]
  by_cases hfinished : t.shared.progress.isFinished = true
  · rw [if_pos hfinished]
    -- The join is finished, and the worker stops.
    exact ⟨{ s with stopped := true }, rfl, rfl, hfor, hlinked, rfl,
      fun hstopped => absurd hstopped (by simp), .ends hfinished rfl (crew_same hs rfl)⟩
  rw [if_neg hfinished, if_neg Bool.false_ne_true]
  obtain ⟨tree, source, htree, hlinked', ⟨order, horder, heq⟩ | ⟨hnone, heq⟩⟩ :=
    @episode_cases γ { t with claimed := t.claimed + 1 } _ hle hfor hlinked s
  · rw [heq]
    -- An order has been executed.
    exact turnsTo_refresh rfl rfl htree hlinked' rfl hahead fun s' hworker hstopped _ =>
      .executes (Bool.eq_false_iff.2 hfinished) horder (hstopped.trans hactive)
        (crew_execute hs hworker)
  · rw [heq]
    refine turnsTo_refresh rfl rfl htree hlinked' rfl hahead fun s' hworker hstopped hs' => ?_
    -- No order is allowed: the worker drops its rules, or gives up if it has none.
    by_cases hrules : s.rules = []
    · exact .givesUp hrules hnone (by simp [hstopped, hrules]) (crew_same hs hworker)
    · refine .drops hnone (by simp [hstopped, hactive, hrules]) (crew_same hs hworker) ?_
      rcases hs' with rfl | ⟨hcome, hdelay⟩
      · rw [Searcher.delay_eq_zero rfl]
        exact Searcher.delay_pos hrules
      · rw [Searcher.delay_eq_two hrules hcome]
        exact Nat.lt_succ_of_le hdelay

end Team

end AdaptiveJoin
