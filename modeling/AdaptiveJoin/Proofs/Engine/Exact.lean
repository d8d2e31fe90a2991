import AdaptiveJoin.Proofs.Engine.Prefilter
import AdaptiveJoin.Proofs.Query.Ascending
import AdaptiveJoin.Proofs.Search.Team
import AdaptiveJoin.Proofs.Search.Termination

/-!
# Joins are exact

`Engine.Returns` describes all results to which the join of a query can come: for all random draws,
for all ways in which the workers take turns, and wherever the search is halted.

* `Engine.returns_of_join?`: what a join answers is such a result.
* `Engine.exists_join?`: a join that nobody halts and nothing limits answers a finished one.
* `Engine.finished_exact`: such a result consists of tuples of the nested loop join, and it is the
  nested loop join once it is finished.
-/

namespace AdaptiveJoin

/-- The filters of a configuration do not overflow on the tables of a query. -/
def Config.Fits (config : Config) (q : Query) : Prop :=
  ∀ table < q.nrTables, config.filter.Fits (q.cardinality table)

/-- Filters that do not overflow on small tables do not overflow on those of a query. -/
theorem Config.fits_of_hasSmallTables {config : Config} {q : Query} (hsmall : q.HasSmallTables)
    (hfits : ∀ rows < 2 ^ 31, config.filter.Fits rows) : config.Fits q :=
  fun table _ => hfits _ (hsmall.cardinality_lt table)

/-- Two workers with a budget of one step, whose tables are filtered in steps of two rows. -/
def Config.sample : Config := { budget := 1, nrWorkers := 2, filter := .sample }

/-- Tables are joined without being filtered. -/
def Config.unfiltered : Config := { prefilter := false }

namespace Engine

/-- A result to which the join of a query can come: some numbers are drawn, and the workers take
some turns, before each of which the search may be halted. -/
def Returns (config : Config) (q : Query) (r : JoinResult) : Prop :=
  ∃ (γ : Type) (_ : RandomSource γ) (tableSource workerSource : Nat → γ) (catalog : Catalog)
    (team : Team γ) (turns : List (Bool × Nat)),
    Catalog.forQuery q = .ok catalog ∧
      team? config q catalog tableSource workerSource = some team ∧ r = result (team.play turns)

variable {config : Config} {q : Query} {r : JoinResult}

theorem prepare?_eq {γ : Type} [RandomSource γ] {catalog : Catalog}
    {tableSource workerSource : Nat → γ} (h : catalog? config q = .ok catalog) :
    prepare? config q tableSource workerSource =
      (team? config q catalog tableSource workerSource).map .ok := by
  unfold prepare?
  rw [h]

/-- **What the join of a valid query answers is a result, and one to which the join can come.** -/
theorem returns_of_join? {γ : Type} [RandomSource γ] {tableSource workerSource : Nat → γ}
    {halt : Nat → Bool} {answer : Except JoinError JoinResult}
    (hconfig : config.validate = .ok ()) (hvalid : q.validate = .ok ()) (hsmall : q.HasSmallTables)
    (h : join? config q tableSource workerSource halt = some answer) :
    ∃ r, answer = .ok r ∧ Returns config q r := by
  obtain ⟨catalog, hcatalog, heq⟩ := catalog?_eq_ok hconfig hvalid hsmall
  unfold join? at h
  rw [prepare?_eq heq] at h
  cases hteam : team? config q catalog tableSource workerSource with
  | none =>
    rw [hteam] at h
    exact absurd h (by simp)
  | some team =>
    rw [hteam] at h
    obtain ⟨team', hrun, rfl⟩ := Option.map_eq_some_iff.1 h
    obtain ⟨turns, rfl⟩ := Team.run_eq_play hrun
    exact ⟨_, rfl, γ, inferInstance, tableSource, workerSource, catalog, team, turns, hcatalog,
      hteam, rfl⟩

/-- **A join that nobody halts answers a finished result**, once its tables have their masks and its
episodes are not limited. -/
theorem exists_join? {γ : Type} [RandomSource γ] {catalog : Catalog}
    (tableSource workerSource : Nat → γ) {masks : Array (Option RowMask)}
    (hconfig : config.validate = .ok ()) (hunlimited : config.maxEpisodes = none)
    (hvalid : q.validate = .ok ()) (hcatalog : Catalog.forQuery q = .ok catalog)
    (hmasks : masks? config q catalog tableSource = some masks) :
    ∃ r, join? config q tableSource workerSource (fun _ => false) = some (.ok r) ∧
      r.finished = true := by
  obtain ⟨t, hrun, hfinished⟩ := Team.exists_run hvalid (Catalog.isBuiltFor_forQuery hcatalog)
    hunlimited masks workerSource
  have hready : catalog? config q = .ok catalog := by
    unfold catalog?
    rw [hconfig, hvalid, hcatalog]
    rfl
  refine ⟨result t, ?_, Team.finished_result hfinished⟩
  unfold join?
  rw [prepare?_eq hready, team?, hmasks]
  exact congrArg (Option.map _) hrun

section Returns

variable (hvalid : q.validate = .ok ()) (hbuilt : q.Built) (hsmall : q.HasSmallTables)
  (hexact : q.HasExactConstants) (hfits : config.Fits q)

include hvalid hbuilt hsmall hexact hfits

/-- A result is that of a sound team. -/
theorem Returns.exists_isSound (h : Returns config q r) :
    ∃ (γ : Type) (t : Team γ) (p : Planner) (task : Task) (workers : Nat),
      t.IsSound p task workers ∧ task.query = q ∧ task.KnowsEmptyTables ∧ r = result t := by
  obtain ⟨γ, _, tableSource, workerSource, catalog, team, turns, hcatalog, hteam, rfl⟩ := h
  obtain ⟨masks, hmasks, rfl⟩ := Option.map_eq_some_iff.1 hteam
  have hbuiltFor := Catalog.isBuiltFor_forQuery hcatalog
  have hserves := Crew.serves_planner hvalid hbuilt (Crew.hasCompleteLookups_planner hbuilt hsmall
    hexact hbuiltFor masks config config.nrWorkers.toNat)
  have hstart := Team.isSound_start (Query.isValid_of_validate hvalid) masks catalog config
    workerSource
  exact ⟨γ, _, _, _, _,
    hstart.play hserves (hasExactMasks hbuilt hsmall hexact hbuiltFor hfits hmasks) turns, rfl,
    Task.knowsEmptyTables_ofQuery q masks config, rfl⟩

/-- **A result consists of tuples of the nested loop join.** -/
theorem Returns.mem_nestedLoopJoin (h : Returns config q r) {tuple : Tuple}
    (htuple : tuple ∈ r.tuples) : tuple ∈ q.nestedLoopJoin := by
  obtain ⟨γ, t, p, task, workers, hsound, rfl, -, rfl⟩ :=
    h.exists_isSound hvalid hbuilt hsmall hexact hfits
  rw [Query.mem_nestedLoopJoin]
  apply hsound.isResult
  have hmem : tuple ∈ t.results.toList.mergeSort tupleLe := htuple
  rwa [List.mem_mergeSort, Std.HashSet.mem_toList] at hmem

/-- **A finished result is the nested loop join.** -/
theorem Returns.tuples_eq (h : Returns config q r) (hfinished : r.finished = true) :
    r.tuples = q.nestedLoopJoin := by
  obtain ⟨γ, t, p, task, workers, hsound, rfl, hempty, rfl⟩ :=
    h.exists_isSound hvalid hbuilt hsmall hexact hfits
  have hnodup : t.results.toList.Nodup :=
    Std.HashSet.distinct_toList.imp fun hne heq => by simp [heq] at hne
  show t.results.toList.mergeSort tupleLe = _
  apply Query.mergeSort_eq_nestedLoopJoin hnodup
  intro tuple
  rw [Std.HashSet.mem_toList]
  exact hsound.mem_results_iff_of_isFinished hempty hfinished

end Returns

/-- **Finished joins are complete, and filtering cannot be told from the result.**  A join finds
tuples of the nested loop join only; a finished one finds all of them, so that all finished joins of
a query agree, whatever their configurations and the random draws are. -/
theorem finished_exact (hvalid : q.validate = .ok ()) (hbuilt : q.Built)
    (hsmall : q.HasSmallTables) (hexact : q.HasExactConstants) (hfits : config.Fits q)
    (h : Returns config q r) :
    (∀ tuple ∈ r.tuples, tuple ∈ q.nestedLoopJoin) ∧
      (r.finished = true → r.tuples = q.nestedLoopJoin) ∧
      ∀ (config' : Config) (r' : JoinResult), config'.Fits q → Returns config' q r' →
        r.finished = true → r'.finished = true → r.tuples = r'.tuples := by
  refine ⟨fun tuple htuple => h.mem_nestedLoopJoin hvalid hbuilt hsmall hexact hfits htuple,
    fun hfinished => h.tuples_eq hvalid hbuilt hsmall hexact hfits hfinished, ?_⟩
  intro config' r' hfits' h' hfinished hfinished'
  rw [h.tuples_eq hvalid hbuilt hsmall hexact hfits hfinished,
    h'.tuples_eq hvalid hbuilt hsmall hexact hfits' hfinished']

/-- The sample query joined with its tables filtered, and without: both joins take their turns to
the end, and find the same rows. -/
theorem finished_exact_sample : Query.sample.unaryPredicates 0 = [1, 2] ∧
    ∃ r, join? .sample .sample (fun _ => (⟨30⟩ : SplitMix)) (fun _ => ⟨0⟩) (fun _ => false) =
        some (.ok r) ∧ r.finished = true ∧ r.tuples = [#[0, 0], #[0, 2], #[1, 0], #[1, 2]] ∧
      ∃ r', join? .unfiltered .sample (fun _ => (⟨30⟩ : SplitMix)) (fun _ => ⟨1⟩)
        (fun _ => false) = some (.ok r') ∧ r'.finished = true ∧ r.tuples = r'.tuples := by
  have hvalid := Query.validate_sample
  have hsmall := Query.hasSmallTables_sample
  have hfits : Config.sample.Fits .sample :=
    Config.fits_of_hasSmallTables hsmall fun _ => FilterConfig.fits_sample
  have hfits' : Config.unfiltered.Fits .sample :=
    Config.fits_of_hasSmallTables hsmall fun _ => FilterConfig.fits_default
  obtain ⟨masks, hmasks⟩ := exists_prefilter_sample
  have hmasks : masks? .sample .sample .sample (fun _ => (⟨30⟩ : SplitMix)) = some masks := hmasks
  have hmasks' : masks? .unfiltered .sample .sample (fun _ => (⟨30⟩ : SplitMix)) = some _ := rfl
  obtain ⟨r, hjoin, hfinished⟩ := exists_join? (fun _ => (⟨30⟩ : SplitMix)) (fun _ => ⟨0⟩) rfl
    rfl hvalid Catalog.forQuery_sample hmasks
  obtain ⟨r', hjoin', hfinished'⟩ := exists_join? (fun _ => (⟨30⟩ : SplitMix)) (fun _ => ⟨1⟩) rfl
    rfl hvalid Catalog.forQuery_sample hmasks'
  -- What the joins answer are results to which they can come.
  obtain ⟨_, heq, hreturns⟩ := returns_of_join? rfl hvalid hsmall hjoin
  obtain rfl := Except.ok.inj heq
  obtain ⟨_, heq', hreturns'⟩ := returns_of_join? rfl hvalid hsmall hjoin'
  obtain rfl := Except.ok.inj heq'
  obtain ⟨-, htuples, hagree⟩ := finished_exact hvalid Query.built_sample hsmall
    Query.hasExactConstants_sample hfits hreturns
  have htuples := (htuples hfinished).trans Query.nestedLoopJoin_sample
  exact ⟨by decide, r, hjoin, hfinished, htuples, r', hjoin', hfinished',
    hagree _ r' hfits' hreturns' hfinished hfinished'⟩

end Engine

end AdaptiveJoin
