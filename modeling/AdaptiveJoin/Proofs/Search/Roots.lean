import AdaptiveJoin.Proofs.Search.Connected

/-!
# The first table of sampled orders

The rows of the first table of an order are divided between the workers.  A search that avoids
Cartesian products therefore prefers base tables with a row for every worker (`Query.Splits`) at the
root, then other base tables, then intermediate results (`OrderTree.mem_recommendedRoots_iff`).

The preferred tables are those of the first kind that occurs in the query, whatever a worker may
still start with.  A worker starts with a preferred table if it may start with one, and with any
table else (`OrderTree.guides_first`).  So the preference for base tables with a row for every
worker always holds, and the preference for base tables holds unless the query has tables of the
first kind and the worker may start with none of them (`OrderTree.sample_firstTable`).
-/

namespace AdaptiveJoin

/-- A base table with a row for every worker. -/
def Query.Splits (q : Query) (workers table : Nat) : Prop :=
  q.isTemporary table = false ∧ workers ≤ q.cardinality table

namespace OrderTree

/-- A table that a worker may join first: the worker has rows of it left and the rules permit it. -/
structure Limits.MayStart (limits : Limits) (q : Query) (table : Nat) : Prop where
  lt : table < q.nrTables
  left : limits.exhaustedRoots.contains table = false
  permits : permits limits.rules table ∅ = true

theorem Limits.mayStart_iff {limits : Limits} {q : Query} {table : Nat} :
    limits.MayStart q table ↔ table < q.nrTables ∧ limits.Allows [table] := by
  have hnext : limits.Allows [table] ↔ limits.Allows [] ∧
      ([] = [] → limits.exhaustedRoots.contains table = false) ∧
        AdaptiveJoin.permits limits.rules table (.ofList []) = true :=
    @allows_concat_iff limits table []
  rw [hnext]
  constructor
  · intro h
    exact ⟨h.lt, allows_nil, fun _ => h.left, h.permits⟩
  · rintro ⟨hlt, -, hleft, hpermits⟩
    exact ⟨hlt, hleft rfl, hpermits⟩

/-! ### Preferences -/

section Preferences

variable {t : OrderTree} (hle : t.query.nrTables ≤ maxTables)

include hle

/-- A preferred table of a list is a table of the list, if the query can number its tables. -/
theorem contains_ofList_filter (p : Nat → Bool) (table : Nat) :
    (TableSet.ofList ((List.range t.query.nrTables).filter p)).contains table = true ↔
      table < t.query.nrTables ∧ p table = true := by
  rw [TableSet.contains_ofList_iff, List.mem_filter, List.mem_range]
  intro other hother
  exact Nat.lt_of_lt_of_le (List.mem_range.1 (List.mem_filter.1 hother).1) hle

/-- **Base tables with a row for every worker are preferred**, if there are any. -/
theorem contains_recommendedRoots_of_splits
    (hsplits : ∃ table < t.query.nrTables, t.query.Splits t.workers table) (table : Nat) :
    (t.recommendedRoots (List.range t.query.nrTables)).contains table = true ↔
      table < t.query.nrTables ∧ t.query.Splits t.workers table := by
  have hlarge : ((List.range t.query.nrTables).filter fun table =>
      !t.query.isTemporary table).filter (fun table => t.workers ≤ t.query.cardinality table) =
        (List.range t.query.nrTables).filter fun table =>
          t.workers ≤ t.query.cardinality table && !t.query.isTemporary table :=
    List.filter_filter ..
  obtain ⟨first, hlt, hbase, hrows⟩ := hsplits
  unfold recommendedRoots
  dsimp only
  -- The large base tables are recommended, as there is one of them.
  rw [hlarge, if_pos, contains_ofList_filter hle]
  · unfold Query.Splits
    simp [and_comm]
  · have hmem : first ∈ (List.range t.query.nrTables).filter fun table =>
        t.workers ≤ t.query.cardinality table && !t.query.isTemporary table := by
      simp [hlt, hbase, hrows]
    simpa using List.ne_nil_of_mem hmem

/-- **Base tables are preferred** if there are some, but none with a row for every worker. -/
theorem contains_recommendedRoots_of_base
    (hsplits : ¬∃ table < t.query.nrTables, t.query.Splits t.workers table)
    (hbase : ∃ table < t.query.nrTables, t.query.isTemporary table = false) (table : Nat) :
    (t.recommendedRoots (List.range t.query.nrTables)).contains table = true ↔
      table < t.query.nrTables ∧ t.query.isTemporary table = false := by
  have hlarge : ((List.range t.query.nrTables).filter fun table =>
      !t.query.isTemporary table).filter (fun table => t.workers ≤ t.query.cardinality table) =
        [] := by
    rw [List.filter_eq_nil_iff]
    intro other hother hrows
    obtain ⟨hlt, hother⟩ := List.mem_filter.1 hother
    exact hsplits ⟨other, List.mem_range.1 hlt, by simpa using hother, of_decide_eq_true hrows⟩
  obtain ⟨first, hlt, hfirst⟩ := hbase
  unfold recommendedRoots
  dsimp only
  rw [hlarge, if_neg (by simp), if_pos, contains_ofList_filter hle, Bool.not_eq_true']
  have hmem : first ∈ (List.range t.query.nrTables).filter fun table =>
      !t.query.isTemporary table := by
    simp [hlt, hfirst]
  simpa using List.ne_nil_of_mem hmem

end Preferences

/-! ### Roots -/

/-- Nodes that list no tables prefer some given ones. -/
def RecommendsFirst (roots : TableSet) (t : OrderTree) : Prop :=
  ∀ id n, t.node? id = some n → n.path = #[] → n.recommended = roots

variable {roots : TableSet} {t t' : OrderTree} {q : Query} {config : Config} {limits : Limits}

/-- The preferences at the root last as long as nodes keep their tables and preferences. -/
theorem RecommendsFirst.of_map (h : t.RecommendsFirst roots) {f : Nat → OrderNode → OrderNode}
    (hf : ∀ id n, (f id n).path = n.path ∧ (f id n).recommended = n.recommended)
    (hnodes : ∀ id, t'.node? id = (t.node? id).map (f id)) : t'.RecommendsFirst roots := by
  intro id n' hn' hpath
  rw [hnodes] at hn'
  obtain ⟨n, hn, rfl⟩ := Option.map_eq_some_iff.1 hn'
  rw [(hf id n).1] at hpath
  rw [(hf id n).2]
  exact h id n hn hpath

theorem RecommendsFirst.record (h : t.RecommendsFirst roots) (id worker action : Nat)
    (reward : Float) : (t.record id worker action reward).RecommendsFirst roots :=
  h.of_map (fun _ _ => by split <;> exact ⟨rfl, rfl⟩) (node?_record t id worker action reward)

theorem RecommendsFirst.forget (h : t.RecommendsFirst roots) (worker : Nat) :
    (t.forget worker).RecommendsFirst roots :=
  h.of_map (f := fun _ n => n.forget worker) (fun _ _ => ⟨rfl, rfl⟩) (node?_forget t worker)

/-- A node that is added lists a table. -/
theorem RecommendsFirst.expand (h : t.RecommendsFirst roots) (id action : Nat) :
    (t.expand id action).RecommendsFirst roots := by
  rcases expand_cases t id action with heq | ⟨n, -, -, hnodes⟩
  · rwa [heq]
  intro id' n' hn' hpath
  rw [hnodes] at hn'
  split at hn'
  · obtain rfl := Option.some.inj hn'
    have hpush : n.path.push (n.tableOf action) = #[] := hpath
    exact absurd hpush (by simp)
  · obtain ⟨m, hm, rfl⟩ := Option.map_eq_some_iff.1 hn'
    split at hpath <;> split <;> exact h id' m hm hpath

/-- **Every step of an episode keeps the preferences at the root.** -/
theorem recommendsFirst_invariant {γ σ : Type} [RandomSource γ] (hle : q.nrTables ≤ maxTables)
    (run : Execute σ) : Run.Invariant q run fun r : Run γ σ =>
      r.tree.IsFor q ∧ r.tree.RecommendsFirst roots where
  isFor hr := hr.1
  draw hr _ := hr
  execute hr _ _ := hr
  expand hr _ _ _ haction := ⟨hr.1.expand hle haction, hr.2.expand _ _⟩
  record hr _ _ _ _ := ⟨hr.1.record _ _ _ _, hr.2.record _ _ _ _⟩

theorem recommended_makeNode_empty (havoids : t.avoidCartesians = true) :
    (t.makeNode #[]).recommended = t.recommendedRoots (List.range t.query.nrTables) := by
  have hall : ((List.range t.query.nrTables).filter fun table =>
      !(TableSet.ofList []).contains table) = List.range t.query.nrTables := by
    apply List.filter_eq_self.2
    intro table _
    rw [show (TableSet.ofList []).contains table = false from TableSet.contains_empty table]
    rfl
  unfold makeNode
  dsimp only
  rw [hall, havoids]
  rfl

theorem recommendsFirst_start (havoids : config.avoidCartesians = true) :
    (start q config).RecommendsFirst
      ((start q config).recommendedRoots (List.range q.nrTables)) := by
  intro id n hn _
  obtain rfl := Array.mem_singleton.1 (Array.mem_of_getElem? hn)
  rw [recommended_makeNode_empty havoids]
  rfl

/-- **The root prefers the tables that it prefers at the start.** -/
theorem Reachable.recommendsFirst (hle : q.nrTables ≤ maxTables)
    (havoids : config.avoidCartesians = true) (ht : Reachable q config t) :
    t.RecommendsFirst ((OrderTree.start q config).recommendedRoots (List.range q.nrTables)) := by
  induction ht with
  | start => exact recommendsFirst_start havoids
  | sample limits execute source world ht ih =>
    exact ((recommendsFirst_invariant hle execute).sample hle limits source world
      ⟨(ht.isLinked hle).1, ih⟩).2
  | forget worker _ ih => exact ih.forget worker

/-! ### Episodes -/

/-- A first table that is in accordance with the preferences: the worker may start with it, and it
is preferred if the worker may start with a preferred table. -/
def IsFirst (roots : TableSet) (q : Query) (limits : Limits) (table : Nat) : Prop :=
  limits.MayStart q table ∧
    ((∃ other, limits.MayStart q other ∧ roots.contains other = true) →
      roots.contains table = true)

/-- **An episode starts with a preferred table if it may.** -/
theorem guides_first (hle : q.nrTables ≤ maxTables) (limits : Limits) (roots : TableSet) :
    Guides q limits (RecommendsFirst roots) fun tables =>
      ∀ first, tables.head? = some first → IsFirst roots q limits first where
  select hfor hroots hnode hallows hstart haction := by
    rename_i t id n action
    have hn := hfor.node id n hnode
    intro first hfirst
    cases hpath : n.path.toList with
    | cons table rest =>
      rw [hpath] at hfirst hstart
      exact hstart first hfirst
    | nil =>
      rw [hpath] at hfirst hallows
      obtain rfl := Option.some.inj hfirst
      have hempty := Array.toList_eq_nil_iff.1 hpath
      -- The actions that may be selected are those of the tables that the worker may start with.
      have hmay {a : Nat} (ha : a < n.actions.size) :
          isAdmissible limits ∅ n a = true ↔ limits.MayStart q (n.tableOf a) := by
        rw [hn.isAdmissible_iff (hpath ▸ hallows), hpath, Limits.mayStart_iff]
        have hlt := ((hn.mem_actions_iff hle).1 (OrderNode.tableOf_mem ha)).1
        simp [hlt]
      refine ⟨(hmay (lt_of_mem_candidates haction)).1 (isAdmissible_of_mem_candidates haction), ?_⟩
      rintro ⟨other, hother, hpreferred⟩
      obtain ⟨a, ha, rfl⟩ := OrderNode.exists_tableOf
        ((hn.mem_actions_iff hle).2 ⟨hother.lt, by simp [hempty]⟩)
      rw [← hroots id n hnode hempty] at hpreferred ⊢
      exact recommended_of_mem_candidates haction ha ((hmay ha).2 hother) hpreferred
  complete _ hne _ hstart horder := by
    obtain ⟨rest, hrest, -⟩ := permitsAll_of_complete? horder
    intro first hfirst
    rw [hrest, List.head?_append_of_ne_nil _ fun hnil => hne (Array.toList_eq_nil_iff.1 hnil)]
      at hfirst
    exact hstart first hfirst

variable {γ σ : Type} [RandomSource γ] {execute : Execute σ}

/-- **The first table is one that the worker may start with, and one that splits between all workers
if it may start with such a table.**  It is a base table if the worker may start with a base table,
unless the query has tables that split between all workers and the worker may start with none of
them. -/
theorem sample_firstTable (hle : q.nrTables ≤ maxTables) (havoids : config.avoidCartesians = true)
    (ht : Reachable q config t) (hexecute : ∀ order world, ¬(execute order world).1 < 0)
    (limits : Limits) (source : γ) (world : σ) :
    ∀ order ∈ (t.sample limits execute.listing source (world, [])).2.world.2,
      ∀ first, order.toList.head? = some first →
        limits.MayStart q first ∧
          ((∃ table, limits.MayStart q table ∧ q.Splits (start q config).workers table) →
            q.Splits (start q config).workers first) ∧
          (((∃ table < q.nrTables, q.Splits (start q config).workers table) →
              ∃ table, limits.MayStart q table ∧ q.Splits (start q config).workers table) →
            (∃ table, limits.MayStart q table ∧ q.isTemporary table = false) →
              q.isTemporary first = false) := by
  intro order horder first hfirst
  obtain ⟨hfor, hlinked⟩ := ht.isLinked hle
  obtain ⟨hmay, hpreferred⟩ := sample_listed hle (guides_first hle limits _)
    (fun run => recommendsFirst_invariant hle run) hfor hlinked (ht.recommendsFirst hle havoids)
    (by simp) hexecute source world order horder first hfirst
  have hlarge (h : ∃ table, limits.MayStart q table ∧ q.Splits (start q config).workers table) :
      q.Splits (start q config).workers first := by
    obtain ⟨table, htable, hsplits⟩ := h
    have hroots := contains_recommendedRoots_of_splits (t := start q config) hle
      ⟨table, htable.lt, hsplits⟩
    exact ((hroots first).1
      (hpreferred ⟨table, htable, (hroots table).2 ⟨htable.lt, hsplits⟩⟩)).2
  refine ⟨hmay, hlarge, ?_⟩
  rintro hunused ⟨table, htable, hbase⟩
  -- Either some table is large enough to be divided, or the tables of the query are recommended.
  by_cases hexists : ∃ table < q.nrTables, q.Splits (start q config).workers table
  · exact (hlarge (hunused hexists)).1
  · have hroots := contains_recommendedRoots_of_base (t := start q config) hle hexists
      ⟨table, htable.lt, hbase⟩
    exact ((hroots first).1
      (hpreferred ⟨table, htable, (hroots table).2 ⟨htable.lt, hbase⟩⟩)).2

/-! ### Three tables and two workers -/

end OrderTree

/-- A base table of one row, a base table of eight rows, and an intermediate result of eight rows;
predicates connect each with the next. -/
def Query.chain : Query :=
  let table (name : String) (rows : Nat) : Table :=
    ⟨name, #[⟨"id", .int (Array.replicate rows (some 1))⟩], by simp [commonRows]⟩
  { Query.ofTables #[table "a" 1, table "b" 8, table "c" 8] with
    predicates := #[.custom "a meets b" [0, 1] fun _ => .holds,
      .custom "b meets c" [1, 2] fun _ => .holds]
    temporary := TableSet.empty.insert 2
    graph := Query.connect (Query.connect (Array.replicate 3 ∅) [0, 1]) [1, 2] }

namespace OrderTree

/-- The search of two workers before the first episode. -/
def chainTree : OrderTree := start .chain { nrWorkers := 2 }

/-- A worker without limits starts with the only base table that has a row for both workers. -/
theorem sample_firstTable_sample :
    Reachable .chain { nrWorkers := 2 } chainTree ∧
      ∃ order, (chainTree.sample .free Execute.counting.listing (⟨0⟩ : SplitMix)
          (0, [])).2.world.2 = [order] ∧
        ∃ first, order.toList.head? = some first ∧ Query.chain.Splits 2 first ∧
          Query.chain.isTemporary first = false := by
  have hlisted : (chainTree.sample .free Execute.counting.listing (⟨0⟩ : SplitMix)
      (0, [])).2.world.2 = [⟨#[1, 0, 2]⟩] := by decide +kernel
  have hmay : Limits.free.MayStart .chain 1 := ⟨by decide, TableSet.contains_empty 1, rfl⟩
  have hsplits : Query.chain.Splits 2 1 := ⟨by decide, by decide⟩
  have hexecute (order : JoinOrder) (count : Nat) : ¬(Execute.counting order count).1 < 0 :=
    (by decide : ¬(1 : Float) < 0)
  obtain ⟨-, hlarge, hbase⟩ := sample_firstTable (by decide) rfl .start hexecute .free
    (⟨0⟩ : SplitMix) 0 ⟨#[1, 0, 2]⟩ (hlisted ▸ List.mem_singleton_self _) 1 rfl
  exact ⟨.start, _, hlisted, 1, rfl, hlarge ⟨1, hmay, hsplits⟩,
    hbase (fun _ => ⟨1, hmay, hsplits⟩) ⟨1, hmay, by decide⟩⟩

/-- A worker that has no rows left of that table starts with the intermediate result, although it
may start with the other base table. -/
theorem sample_firstTable_temporary :
    Reachable .chain { nrWorkers := 2 } chainTree ∧
      Limits.MayStart ⟨1, [], .ofList [1]⟩ .chain 0 ∧ Query.chain.isTemporary 0 = false ∧
        Query.chain.isTemporary 2 = true ∧
          (chainTree.sample ⟨1, [], .ofList [1]⟩ Execute.counting.listing (⟨0⟩ : SplitMix)
            (0, [])).2.world.2 = [⟨#[2, 1, 0]⟩] :=
  ⟨.start, ⟨by decide, by decide, rfl⟩, by decide, by decide, by decide +kernel⟩

end OrderTree

end AdaptiveJoin
