import AdaptiveJoin.Proofs.Filter.Constants
import AdaptiveJoin.Proofs.Filter.Masks
import AdaptiveJoin.Proofs.Filter.Progress
import AdaptiveJoin.Proofs.Plan.Catalogs

/-!
# Learned filters end with the exact rows

Every episode of the loop decides at least one row, so the loop ends after at most as many episodes
as the table has rows (`FilterTree.Run.exists_exhaust_le`).  What it returns depends on the query
alone: the rows on which all predicates of the table hold, and an order of evaluation that lists
each of these predicates once (`Query.filterTable_exact`).

Of the scores that guide the episodes, nothing is assumed but that they are numbers once they are
compared.  The configuration has to leave room for its batches: `Query.filterTable_overflows` is a
filter of two rows that asks for too much, although no word of its slices and batches overflows.
-/

namespace AdaptiveJoin

namespace FilterTree.Run

variable {γ : Type} [RandomSource γ] {r : Run γ}

/-- The run of the loop after some episodes; there are no more once all rows are decided. -/
def afterEpisodes (r : Run γ) : Nat → Run γ
  | 0 => r
  | episodes + 1 =>
    let r := r.afterEpisodes episodes
    if r.filter.isFinished then r
    else (r.tree.sample (episodes + 1) r.source r.filter).2

/-- The next episode of the loop after some episodes. -/
def episodeAfter (r : Run γ) (episodes : Nat) : FilterAnswer × Run γ :=
  let r := r.afterEpisodes episodes
  r.tree.sample (episodes + 1) r.source r.filter

/-! ### The loop -/

theorem afterEpisodes_succ {episodes : Nat}
    (h : (r.afterEpisodes episodes).filter.isFinished = false) :
    r.afterEpisodes (episodes + 1) = (r.episodeAfter episodes).2 := by
  rw [afterEpisodes]
  exact if_neg (by rw [h]; decide)

/-- Before all rows are decided, the loop runs the next episode. -/
theorem exhaust_eq {episodes : Nat} (h : (r.afterEpisodes episodes).filter.isFinished = false) :
    exhaust episodes (r.afterEpisodes episodes) =
      match r.episodeAfter episodes with
      | (.overflow, _) => none
      | (.decided _, r) => exhaust (episodes + 1) r
      | (.refused, r) => exhaust (episodes + 1) r := by
  rw [exhaust, if_neg (by rw [h]; decide)]
  rfl

/-- The loop goes on with the next episode until all rows are decided, as long as there is room. -/
theorem exhaust_afterEpisodes {episodes : Nat}
    (h : (r.afterEpisodes episodes).filter.isFinished = false)
    (hroom : (r.episodeAfter episodes).1 ≠ .overflow) :
    exhaust episodes (r.afterEpisodes episodes) =
      exhaust (episodes + 1) (r.afterEpisodes (episodes + 1)) := by
  rw [exhaust_eq h, afterEpisodes_succ h]
  generalize r.episodeAfter episodes = result at hroom ⊢
  obtain ⟨answer, r'⟩ := result
  cases answer with
  | decided reward => rfl
  | refused => rfl
  | overflow => exact absurd rfl hroom

/-- An episode that asks for too much room ends the loop without a result. -/
theorem exhaust_eq_none {episodes : Nat}
    (h : (r.afterEpisodes episodes).filter.isFinished = false)
    (hroom : (r.episodeAfter episodes).1 = .overflow) :
    exhaust episodes (r.afterEpisodes episodes) = none := by
  rw [exhaust_eq h]
  generalize r.episodeAfter episodes = result at hroom ⊢
  obtain ⟨answer, r'⟩ := result
  obtain rfl : answer = .overflow := hroom
  rfl

/-- The loop ends with the first of its runs that has decided all rows. -/
theorem exists_exhaust {first more : Nat}
    (hroom : ∀ episodes, (r.afterEpisodes episodes).filter.isFinished = false →
      (r.episodeAfter episodes).1 ≠ .overflow)
    (h : (r.afterEpisodes (first + more)).filter.isFinished = true) :
    ∃ episodes ≤ first + more, exhaust first (r.afterEpisodes first) =
      some (episodes, r.afterEpisodes episodes) := by
  induction more generalizing first with
  | zero =>
    rw [Nat.add_zero] at h
    exact ⟨first, Nat.le_refl first, by rw [exhaust, if_pos h]⟩
  | succ more ih =>
    by_cases hfinished : (r.afterEpisodes first).filter.isFinished = true
    · exact ⟨first, Nat.le_add_right _ _, by rw [exhaust, if_pos hfinished]⟩
    · -- Another episode runs, and one fewer remains.
      have hunfinished := Bool.eq_false_of_not_eq_true hfinished
      rw [exhaust_afterEpisodes hunfinished (hroom first hunfinished)]
      rw [show first + (more + 1) = first + 1 + more by omega] at h ⊢
      exact ih h

/-- Once all rows are decided, they stay so. -/
theorem isFinished_afterEpisodes_of_le {m n : Nat} (hle : m ≤ n)
    (h : (r.afterEpisodes m).filter.isFinished = true) :
    (r.afterEpisodes n).filter.isFinished = true := by
  induction n, hle using Nat.le_induction with
  | base => exact h
  | succ n _ ih =>
    rwa [afterEpisodes, if_pos ih]

/-- What calls keep is known between episodes. -/
theorem holds_afterEpisodes {c : FilterConfig} {P : TableFilter → Prop} (hP : c.Keeps P)
    (hr : r.Holds (·.IsBounded c) P) (episodes : Nat) :
    (r.afterEpisodes episodes).Holds (·.IsBounded c) P := by
  induction episodes with
  | zero => exact hr
  | succ episodes ih =>
    rw [afterEpisodes]
    split
    · exact ih
    · exact sample_keeps hP ih.tree (episodes + 1) _ ih.filter

/-- **No episode of the loop asks for too much room** if the configuration leaves room. -/
theorem episodeAfter_ne_overflow {c : FilterConfig} {room : Bool} (hroom : c.HasRoom room)
    (hr : r.tree.IsBounded c) (hindexed : r.filter.HasIndex → room = true) (episodes : Nat) :
    (r.episodeAfter episodes).1 ≠ .overflow := by
  have hkeeps : c.Keeps fun f => f.indexes = r.filter.indexes :=
    fun f choice hf _ => (f.indexes_execute _ choice).trans hf
  obtain ⟨hbounded, hindexes⟩ := holds_afterEpisodes hkeeps ⟨hr, rfl⟩ episodes
  refine sample_ne_overflow hroom hbounded (fun hindex => hindexed ?_) (episodes + 1) _
  rwa [TableFilter.HasIndex, hindexes] at hindex

section Loop

variable {c : FilterConfig} {indexed : List Bool} {f : TableFilter} (hr : r.IsReady c indexed f)
  (hexploration : ¬c.explorationWeight < 0) (hfits : c.Fits f.cardinality) {room : Bool}
  (hroom : c.HasRoom room) (hindexed : f.HasIndex → room = true)

include hr hexploration hfits hroom hindexed

/-- Between episodes, the tree is sound and its root keeps an open action, and every episode has
decided at least one row. -/
theorem isReady_afterEpisodes {episodes : Nat}
    (hscores : ∀ before < episodes, (r.afterEpisodes before).filter.isFinished = false →
      (r.afterEpisodes before).tree.root.IsComparable c.explorationWeight (lastAction indexed)) :
    (r.afterEpisodes episodes).IsReady c indexed f ∧
      ((r.afterEpisodes episodes).filter.isFinished = true ∨
        episodes ≤ (r.afterEpisodes episodes).filter.cursor) := by
  induction episodes with
  | zero => exact ⟨hr, Or.inr (Nat.zero_le _)⟩
  | succ episodes ih =>
    obtain ⟨hready, hcursor⟩ := ih fun before hlt => hscores before (Nat.lt_succ_of_lt hlt)
    rw [afterEpisodes]
    split
    · rename_i hfinished
      exact ⟨hready, Or.inl hfinished⟩
    · rename_i hfinished
      have hunfinished := Bool.eq_false_of_not_eq_true hfinished
      obtain ⟨reward, r', heq, -, hready', hlt⟩ := hready.sample hexploration hfits hroom hindexed
        hunfinished (hscores episodes (Nat.lt_succ_self _) hunfinished) (episodes + 1)
      -- Every episode so far has moved the cursor by a row, and so does this one.
      have hle := hcursor.resolve_left hfinished
      rw [heq]
      exact ⟨hready', Or.inr (Nat.lt_of_le_of_lt hle hlt)⟩

variable (hscores : ∀ episodes, (r.afterEpisodes episodes).filter.isFinished = false →
    (r.afterEpisodes episodes).tree.root.IsComparable c.explorationWeight (lastAction indexed))

include hscores

/-- **While rows are undecided, the next episode decides at least one**, for a reward that is not
negative. -/
theorem episodeAfter_eq {episodes : Nat}
    (hunfinished : (r.afterEpisodes episodes).filter.isFinished = false) :
    ∃ reward r', r.episodeAfter episodes = (.decided reward, r') ∧ 0 ≤ reward ∧
      (r.afterEpisodes episodes).filter.cursor < r'.filter.cursor := by
  obtain ⟨hready, -⟩ := isReady_afterEpisodes hr hexploration hfits hroom hindexed
    fun before (_ : before < episodes) => hscores before
  obtain ⟨reward, r', heq, hreward, -, hlt⟩ := hready.sample hexploration hfits hroom hindexed
    hunfinished (hscores episodes hunfinished) (episodes + 1)
  exact ⟨reward, r', heq, hreward, hlt⟩

/-- **The loop ends after at most as many episodes as the table has rows.** -/
theorem exists_exhaust_le :
    ∃ episodes ≤ f.cardinality, exhaust 0 r = some (episodes, r.afterEpisodes episodes) := by
  have hindexed' : r.filter.HasIndex → room = true := by
    rwa [TableFilter.HasIndex, hr.filter.indexes_eq]
  -- As many episodes as there are rows have decided all of them.
  obtain ⟨hlast, hcursor⟩ := isReady_afterEpisodes hr hexploration hfits hroom hindexed
    fun before (_ : before < f.cardinality) => hscores before
  have hfinished : (r.afterEpisodes f.cardinality).filter.isFinished = true :=
    hcursor.elim id fun hcursor => decide_eq_true (hlast.filter.cardinality_eq.trans_le hcursor)
  rw [← Nat.zero_add f.cardinality] at hfinished ⊢
  exact exists_exhaust (fun episodes _ =>
    episodeAfter_ne_overflow hroom hr.sound.bounded hindexed' episodes) hfinished

end Loop

end FilterTree.Run

/-! ### Learned filters -/

/-- An accepted weight of exploration is not negative. -/
theorem FilterConfig.not_explorationWeight_lt {config : FilterConfig}
    (h : config.validate = .ok ()) : ¬config.explorationWeight < 0 := by
  unfold validate checkParameter at h
  split at h
  · exact absurd h (by simp)
  · split at h
    · rename_i haccepted
      exact (zero_le_iff.1 (of_decide_eq_true (Bool.and_eq_true_iff.1 haccepted).2)).2
    · exact absurd h (by simp)

namespace FilterTree

/-- A new tree is sound. -/
theorem isSound_start (indexed : List Bool) (c : FilterConfig) :
    (start indexed c).IsSound c indexed where
  bounded := isBounded_start indexed c
  shaped := isShaped_start indexed c
  rewards
    | 0 => FilterNode.hasNonnegRewards_start _ _ _ _
    | _ + 1 => FilterNode.hasNonnegRewards_start .root 0 [] #[]

end FilterTree

namespace Query

variable {q : Query} {table : Nat} {catalog : Catalog}

/-- Which predicates of a table have an index. -/
def indexedPredicates (q : Query) (table : Nat) (catalog : Catalog) : List Bool :=
  ((q.unaryPredicates table).map (q.filterIndex? catalog)).map Option.isSome

/-- The run of a filter before its first episode. -/
def startRun {γ : Type} (q : Query) (table : Nat) (catalog : Catalog) (config : FilterConfig)
    (source : γ) : FilterTree.Run γ :=
  ⟨.start (q.indexedPredicates table catalog) config, source, q.startFilter catalog table⟩

/-- The run of a filter is ready for its first episode. -/
theorem SuitsFilter.isReady_startRun {γ : Type} (hq : q.SuitsFilter table)
    (hcatalog : catalog.IsBuiltFor q) (config : FilterConfig) (source : γ) :
    (q.startRun table catalog config source).IsReady config (q.indexedPredicates table catalog)
      (q.startFilter catalog table) where
  sound := FilterTree.isSound_start _ config
  root := FilterNode.isOpen_start .root 0 []
    (FilterTree.lastAction_lt (q.indexedPredicates table catalog))
  filter := (hq.isExact_startFilter hcatalog).leadsTo_self

/-- An order of positions is an order of what stands there. -/
theorem map_getD_perm {order : List Nat} {predicates : List Nat}
    (h : order.Perm (List.range predicates.length)) :
    (order.map fun p => predicates[p]?.getD 0).Perm predicates := by
  have hall : (List.range predicates.length).map (fun p => predicates[p]?.getD 0) = predicates :=
    List.ext_getElem (by simp) fun i _ hi => by simp [hi]
  have hmap := h.map fun p => predicates[p]?.getD 0
  rwa [hall] at hmap

/-- What a filter with predicates answers when its episodes have ended. -/
theorem filterTable_eq_some {γ : Type} [RandomSource γ] {config : FilterConfig} {source : γ}
    {episodes : Nat} {r : FilterTree.Run γ} (hsome : q.unaryPredicates table ≠ [])
    (hexhaust : (q.startRun table catalog config source).exhaust 0 = some (episodes, r)) :
    q.filterTable table catalog config source = some
      { table := table
        rows := r.filter.rows.toList
        bestOrder := r.tree.bestOrder.map fun p => (q.unaryPredicates table)[p]?.getD 0
        episodes := episodes } := by
  rw [filterTable, if_neg (mt List.isEmpty_iff.1 hsome)]
  exact congrArg (Option.map _) hexhaust

/-- A filter whose episodes end answers with an order that lists each of its predicates once. -/
theorem exists_filterTable {γ : Type} [RandomSource γ] {config : FilterConfig} {source : γ}
    {episodes : Nat} {r : FilterTree.Run γ}
    (hshaped : r.tree.IsShaped (q.indexedPredicates table catalog))
    (hexhaust : (q.startRun table catalog config source).exhaust 0 = some (episodes, r)) :
    ∃ filtered, q.filterTable table catalog config source = some filtered ∧
      filtered.episodes ≤ episodes ∧ filtered.bestOrder.Perm (q.unaryPredicates table) := by
  by_cases hnone : q.unaryPredicates table = []
  · refine ⟨⟨table, List.range (q.cardinality table), [], 0⟩, ?_, Nat.zero_le _, ?_⟩
    · rw [filterTable, if_pos (List.isEmpty_iff.2 hnone)]
    · rw [hnone]
  · refine ⟨_, filterTable_eq_some hnone hexhaust, Nat.le_refl episodes, map_getD_perm ?_⟩
    have hlength : (q.indexedPredicates table catalog).length =
        (q.unaryPredicates table).length := by simp [indexedPredicates]
    rw [← hlength, ← hshaped.nrPredicates_eq]
    exact hshaped.bestOrder_perm

/-- A filter of a table has an index if some predicate of the table has one. -/
theorem any_indexedPredicates (h : (q.startFilter catalog table).HasIndex) :
    (q.indexedPredicates table catalog).any id = true := by
  obtain ⟨p, hp⟩ := h
  obtain ⟨access, haccess⟩ := Option.ne_none_iff_exists'.1 hp
  obtain ⟨id, hid, haccess⟩ := indexes_startFilter (Option.join_eq_some_iff.1 haccess)
  rw [List.any_eq_true]
  refine ⟨_, List.mem_map_of_mem (List.mem_map_of_mem (List.mem_of_getElem? hid)), ?_⟩
  rw [haccess]
  rfl

/-- **The filter of a table does not ask for too much room** if the configuration leaves room. -/
theorem episodeAfter_startRun_ne_overflow {γ : Type} [RandomSource γ] {config : FilterConfig}
    (hroom : config.HasRoom ((q.indexedPredicates table catalog).any id)) (source : γ)
    (episodes : Nat) :
    ((q.startRun table catalog config source).episodeAfter episodes).1 ≠ .overflow :=
  FilterTree.Run.episodeAfter_ne_overflow hroom (FilterTree.isBounded_start _ config)
    any_indexedPredicates episodes

/-- A filter with room answers once some number of episodes has decided all rows. -/
theorem exists_filterTable_of_isFinished {γ : Type} [RandomSource γ] {config : FilterConfig}
    {source : γ} (hroom : config.HasRoom ((q.indexedPredicates table catalog).any id))
    (h : q.unaryPredicates table ≠ [] → ∃ episodes,
      ((q.startRun table catalog config source).afterEpisodes episodes).filter.isFinished = true) :
    ∃ filtered, q.filterTable table catalog config source = some filtered := by
  by_cases hnone : q.unaryPredicates table = []
  · exact ⟨_, by rw [filterTable, if_pos (List.isEmpty_iff.2 hnone)]⟩
  · obtain ⟨episodes, hfinished⟩ := h hnone
    rw [← Nat.zero_add episodes] at hfinished
    obtain ⟨_, -, hexhaust⟩ := FilterTree.Run.exists_exhaust
      (fun before _ => episodeAfter_startRun_ne_overflow hroom source before) hfinished
    exact ⟨_, filterTable_eq_some hnone hexhaust⟩

section Exact

variable {γ : Type} [RandomSource γ] {config : FilterConfig} {source : γ}
  (hcatalog : catalog.IsBuiltFor q) (hvalid : config.validate = .ok ())
  (hfits : config.Fits (q.cardinality table))
  (hroom : config.HasRoom ((q.indexedPredicates table catalog).any id))
  (hscores : ∀ episodes,
    ((q.startRun table catalog config source).afterEpisodes episodes).filter.isFinished = false →
      ((q.startRun table catalog config source).afterEpisodes episodes).tree.root.IsComparable
        config.explorationWeight (FilterTree.lastAction (q.indexedPredicates table catalog)))

include hcatalog hvalid hfits hroom hscores

/-- **Filtering ends**, after at most as many episodes as the table has rows. -/
theorem SuitsFilter.exists_filterTable_le (hq : q.SuitsFilter table) :
    ∃ filtered, q.filterTable table catalog config source = some filtered ∧
      filtered.episodes ≤ q.cardinality table ∧
      filtered.bestOrder.Perm (q.unaryPredicates table) := by
  have hready := hq.isReady_startRun hcatalog config source
  have hexploration := FilterConfig.not_explorationWeight_lt hvalid
  have hfits' : config.Fits (q.startFilter catalog table).cardinality :=
    hq.cardinality_startFilter.symm ▸ hfits
  obtain ⟨episodes, hle, hexhaust⟩ := FilterTree.Run.exists_exhaust_le hready hexploration hfits'
    hroom any_indexedPredicates hscores
  obtain ⟨hready', -⟩ := FilterTree.Run.isReady_afterEpisodes hready hexploration hfits' hroom
    any_indexedPredicates fun before (_ : before < episodes) => hscores before
  obtain ⟨filtered, hfiltered, hepisodes, horder⟩ :=
    exists_filterTable hready'.sound.shaped hexhaust
  exact ⟨filtered, hfiltered, hepisodes.trans (hle.trans_eq hq.cardinality_startFilter), horder⟩

/-- **Learned filters end with the exact rows**, as long as the configuration leaves room for its
batches.  While rows are undecided, the next episode is worth at least 0 and decides at least one
row; so the loop ends after at most as many episodes as the table has rows.  It keeps the rows on
which all predicates of the table hold, in ascending order, and lists each of these predicates
once. -/
theorem filterTable_exact (htable : table < q.nrTables) (hsmall : q.cardinality table < 2 ^ 31)
    (hmakes : ∀ p ∈ q.predicates, p.tables = [table] → q.Makes p)
    (hexact : ∀ p ∈ q.predicates, p.tables = [table] → ∀ column value c,
      p.shape = .constantEquality column value → q.column? column = some c → c.kind = .int →
        value.kind ≠ .double) :
    (∀ episodes, let r := (q.startRun table catalog config source).afterEpisodes episodes
      r.filter.isFinished = false →
        ∃ reward r', r.tree.sample (episodes + 1) r.source r.filter = (.decided reward, r') ∧
          0 ≤ reward ∧ r.filter.cursor < r'.filter.cursor) ∧
    ∃ filtered, q.filterTable table catalog config source = some filtered ∧
      filtered.episodes ≤ q.cardinality table ∧
      filtered.rows = (List.range (q.cardinality table)).filter (q.keeps table) ∧
      filtered.bestOrder.Perm (q.unaryPredicates table) := by
  have hq : q.SuitsFilter table :=
    ⟨htable, hsmall, fun p hp hp' => (hmakes p hp hp').describes, hexact⟩
  refine ⟨?_, ?_⟩
  · have hexploration := FilterConfig.not_explorationWeight_lt hvalid
    have hfits' : config.Fits (q.startFilter catalog table).cardinality :=
      hq.cardinality_startFilter.symm ▸ hfits
    intro episodes r hunfinished
    -- As long as rows are left, the next episode decides a slice.
    exact FilterTree.Run.episodeAfter_eq (hq.isReady_startRun hcatalog config source) hexploration
      hfits' hroom any_indexedPredicates hscores hunfinished
  · obtain ⟨filtered, hfiltered, hepisodes, horder⟩ :=
      hq.exists_filterTable_le hcatalog hvalid hfits hroom hscores
    exact ⟨filtered, hfiltered, hepisodes, hq.rows_filterTable hcatalog hfits hfiltered, horder⟩

end Exact

end Query

/-! ### The filter of the sample query -/

/-- Steps of two rows. -/
def FilterConfig.sample : FilterConfig := { rowsPerStep := 2, parallelRowsPerStep := 2 }

namespace FilterConfig

theorem validate_sample : sample.validate = .ok () := rfl

theorem fits_sample {rows : Nat} (h : rows < 2 ^ 31) : sample.Fits rows := by
  have hrows : sample.rowsPerStep.toNat = 2 := rfl
  have hparallel : sample.parallelRowsPerStep.toNat = 2 := rfl
  have hbatches : sample.maxBatches = 6 := rfl
  constructor <;> omega

theorem hasRoom_sample (indexed : Bool) : sample.HasRoom indexed :=
  hasRoom_of_lt (by decide) (by decide) (by decide) indexed

end FilterConfig

namespace Query

theorem suitsFilter_sample : sample.SuitsFilter 0 :=
  built_sample.suitsFilter hasSmallTables_sample hasExactConstants_sample (by decide)

theorem exists_filterIndex?_sample : ∃ access, sample.filterIndex? .sample 1 = some access := by
  obtain ⟨ix, hindex⟩ := Catalog.exists_index?_forQuery Catalog.forQuery_sample
    (p := sample.predicates[1]) (r := ⟨0, 0⟩) (Array.getElem_mem _) (List.mem_singleton_self _)
    ⟨sampleLeft, rfl⟩
  obtain ⟨column, hcolumn, hok⟩ := Catalog.isBuiltFor_sample _ _ hindex
  obtain rfl := Option.some.inj hcolumn
  obtain ⟨ix', hok', hrep⟩ := ColumnIndex.ofColumn_eq_ok (c := sampleLeft) (by decide)
  obtain rfl := Except.ok.inj (hok'.symm.trans hok)
  obtain ⟨runs, rfl⟩ := hrep.exists_int rfl
  refine ⟨⟨.int runs, .int 1⟩, ?_⟩
  have hshape : sample.predicates[1]?.map Predicate.shape =
      some (.constantEquality ⟨0, 0⟩ (.int 1)) := rfl
  rw [filterIndex?, hshape]
  simp only [hindex]
  rfl

/-- The index that supplies the rows of the first table with the right number. -/
def sampleAccess : FilterIndex :=
  (sample.filterIndex? .sample 1).get (Option.isSome_iff_exists.2 exists_filterIndex?_sample)

theorem filterIndex?_sample :
    (sample.unaryPredicates 0).map (sample.filterIndex? .sample) = [some sampleAccess, none] := by
  have hpredicates : sample.unaryPredicates 0 = [1, 2] := by decide
  rw [hpredicates, List.map_cons, List.map_singleton, sampleAccess, Option.some_get]
  rfl

/-- The first of the two predicates has an index. -/
theorem indexedPredicates_sample : sample.indexedPredicates 0 .sample = [true, false] := by
  rw [indexedPredicates, filterIndex?_sample]
  rfl

/-- The run of the filter of the sample query before its first episode. -/
def sampleRun : FilterTree.Run SplitMix :=
  ⟨.start [true, false] .sample, ⟨30⟩, .start sample 0 [1, 2] [some sampleAccess, none]⟩

theorem startRun_sample : sample.startRun 0 .sample .sample (⟨30⟩ : SplitMix) = sampleRun := by
  rw [startRun, indexedPredicates_sample, startFilter, filterIndex?_sample]
  rfl

/-- In the first three episodes the predicates are not evaluated in their own order. -/
theorem triesOf_sampleRun : ∀ episodes < 3,
    (sampleRun.afterEpisodes episodes).tree.root.triesOf 3 = 0 := by
  decide +kernel

/-- Two episodes leave a single row undecided. -/
theorem cursor_sampleRun : (sampleRun.afterEpisodes 2).filter.cursor = 4 := by
  decide +kernel

/-- Whatever the third episode does, it decides the last row. -/
theorem isFinished_sampleRun : (sampleRun.afterEpisodes 3).filter.isFinished = true := by
  have hfits : FilterConfig.sample.Fits (sample.startFilter .sample 0).cardinality := by
    rw [suitsFilter_sample.cardinality_startFilter]
    exact FilterConfig.fits_sample suitsFilter_sample.cardinality_lt
  have hstart := suitsFilter_sample.isReady_startRun Catalog.isBuiltFor_sample .sample
    (⟨30⟩ : SplitMix)
  rw [startRun_sample, indexedPredicates_sample] at hstart
  have hscores (episodes : Nat) (hlt : episodes < 3) :
      (sampleRun.afterEpisodes episodes).tree.root.IsComparable
        FilterConfig.sample.explorationWeight 3 :=
    fun htried => absurd (triesOf_sampleRun episodes hlt) htried
  have hexploration := FilterConfig.not_explorationWeight_lt FilterConfig.validate_sample
  obtain ⟨hready, -⟩ := FilterTree.Run.isReady_afterEpisodes hstart hexploration hfits
    (FilterConfig.hasRoom_sample true) (fun _ => rfl)
    fun before (hlt : before < 2) _ => hscores before (hlt.trans (by decide))
  have hcardinality : (sampleRun.afterEpisodes 2).filter.cardinality = 5 :=
    hready.filter.cardinality_eq
  have hunfinished : (sampleRun.afterEpisodes 2).filter.isFinished = false := by
    rw [TableFilter.isFinished_eq_false_iff, cursor_sampleRun, hcardinality]
    decide
  -- The third episode starts at the last row, so it cannot but finish.
  obtain ⟨reward, r', heq, -, hready', hlt⟩ := hready.sample hexploration hfits
    (FilterConfig.hasRoom_sample true) (fun _ => rfl) hunfinished (hscores 2 (by decide)) 3
  rw [FilterTree.Run.afterEpisodes_succ hunfinished, FilterTree.Run.episodeAfter, heq]
  rw [cursor_sampleRun] at hlt
  exact decide_eq_true (hready'.filter.cardinality_eq.trans_le hlt)

/-- The scores of the sample run are not compared before the last row is decided. -/
theorem isComparable_sampleRun (episodes : Nat)
    (hunfinished : (sampleRun.afterEpisodes episodes).filter.isFinished = false) :
    (sampleRun.afterEpisodes episodes).tree.root.IsComparable
      FilterConfig.sample.explorationWeight 3 := by
  intro htried
  rcases Nat.lt_or_ge episodes 3 with hlt | hle
  · exact absurd (triesOf_sampleRun episodes hlt) htried
  · have hfinished := FilterTree.Run.isFinished_afterEpisodes_of_le hle isFinished_sampleRun
    exact absurd (hfinished.symm.trans hunfinished) nofun

/-- The first table of the sample query is filtered in steps of two rows, by three episodes or by
more, to the rows that both predicates keep. -/
theorem filterTable_exact_sample : ∃ filtered,
    sample.filterTable 0 .sample .sample (⟨30⟩ : SplitMix) = some filtered ∧
      (∀ episodes < 3, ∃ reward r', sampleRun.episodeAfter episodes = (.decided reward, r') ∧
        0 ≤ reward ∧ (sampleRun.afterEpisodes episodes).filter.cursor < r'.filter.cursor) ∧
      filtered.episodes ≤ 5 ∧ filtered.rows = [0, 1] ∧ filtered.bestOrder.Perm [1, 2] := by
  have hscores := isComparable_sampleRun
  have hunfinished : ∀ episodes < 3,
      (sampleRun.afterEpisodes episodes).filter.isFinished = false := by
    decide +kernel
  rw [← startRun_sample] at hscores hunfinished
  obtain ⟨hepisodes, filtered, hfiltered, hle, hrows, horder⟩ := filterTable_exact
    Catalog.isBuiltFor_sample FilterConfig.validate_sample
    (FilterConfig.fits_sample suitsFilter_sample.cardinality_lt)
    (FilterConfig.hasRoom_sample _)
    (by rw [indexedPredicates_sample]; exact hscores)
    suitsFilter_sample.table_lt suitsFilter_sample.cardinality_lt
    (fun p hp _ => (built_sample.makes p hp).1) fun p hp _ => hasExactConstants_sample p hp
  rw [← startRun_sample]
  exact ⟨filtered, hfiltered, fun episodes hlt => hepisodes episodes (hunfinished episodes hlt),
    hle, hrows, horder⟩

/-! ### A filter without room -/

/-- The query that keeps the rows of a table of two rows whose number is not negative. -/
def twoRows : Query :=
  let column : Column := ⟨"x", .int #[some 1, some 2]⟩
  { ofTables #[⟨"t", #[column], by simp [commonRows]⟩] with
    predicates := #[.ofTables "t.x >= 0" [0] .residual fun tuple =>
      Comparison.ge.truth (column.compareValue (tuple.row 0) (.int 0))] }

/-- More numbers of batches to choose from than there is room for, all of them 0. -/
def manyActions : FilterConfig :=
  { rowsPerStep := 1
    parallelRowsPerStep := 1
    rowParallelActions := 4611686018427387904
    rowParallelDelta := 0 }

theorem makes_twoRows : ∀ p ∈ twoRows.predicates, twoRows.Makes p := by
  intro p hp
  obtain rfl := Array.mem_singleton.1 hp
  have h : Predicate.compareConstant twoRows.tables ⟨0, 0⟩ .ge (.int 0) =
      .ok twoRows.predicates[0] := rfl
  exact .compareConstant h

/-- The run of the filter of this query before its first episode. -/
def twoRowsRun : FilterTree.Run SplitMix := twoRows.startRun 0 .empty manyActions ⟨0⟩

/-- The first episode chooses the only predicate, and the node behind it would choose from 2^62
numbers of batches. -/
theorem episodeAfter_twoRowsRun : (twoRowsRun.episodeAfter 0).1 = .overflow := by
  decide +kernel

/-- **A valid configuration whose words fit can ask for too much room**, so that nothing is
filtered. -/
theorem filterTable_overflows : twoRows.validate = .ok () ∧
    (∀ p ∈ twoRows.predicates, twoRows.Makes p) ∧ Catalog.forQuery twoRows = .ok .empty ∧
    manyActions.validate = .ok () ∧ manyActions.Fits (twoRows.cardinality 0) ∧
    twoRows.filterTable 0 .empty manyActions (⟨0⟩ : SplitMix) = none := by
  have hfits : manyActions.rowsPerStep.toNat + 2 < 2 ^ 64 ∧
      manyActions.parallelRowsPerStep.toNat + 2 < 2 ^ 64 ∧ manyActions.maxBatches + 2 ≤ 2 ^ 32 := by
    decide
  refine ⟨rfl, makes_twoRows, rfl, rfl, ⟨hfits.1, hfits.2.1, hfits.2.2⟩, ?_⟩
  have hunfinished : (twoRowsRun.afterEpisodes 0).filter.isFinished = false := rfl
  have hnone := FilterTree.Run.exhaust_eq_none hunfinished episodeAfter_twoRowsRun
  rw [filterTable, if_neg (by decide)]
  exact congrArg (Option.map _) hnone

end Query

end AdaptiveJoin
