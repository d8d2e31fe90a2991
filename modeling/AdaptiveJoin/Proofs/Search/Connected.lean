import AdaptiveJoin.Proofs.Query.JoinGraph
import AdaptiveJoin.Proofs.Search.Prefixes
import AdaptiveJoin.Proofs.Search.Shape

/-!
# Sampled orders follow the join graph

A search that avoids Cartesian products joins a table without a predicate only if it has to: as long
as a remaining table is both permitted by the rules and connected with the tables joined so far, the
next table is connected with them (`FollowsConnections`).

Two mechanisms put an order together.  A node prefers the connected tables
(`OrderNode.PrefersConnected`), which decides as long as no action is excluded
(`OrderTree.isConnected_of_mem_candidates`), and a random completion takes them first
(`OrderTree.followsConnections_of_complete?`).  The first attempt at a node is the only one that
leads to the execution of an order, so no action is ever excluded on the way to it, and
`OrderTree.sample_followsConnections` holds of all trees that episodes can build.
-/

namespace AdaptiveJoin

/-- Some remaining table may be joined next and is connected with the tables joined so far. -/
def HasConnection (rules : List Precedence) (q : Query) (joined : List Nat) : Prop :=
  ∃ table < q.nrTables, table ∉ joined ∧ permits rules table (.ofList joined) = true ∧
    q.Connects table joined

/-- Wherever some remaining table is permitted and connected with the tables before it, the next
table is connected with them. -/
def FollowsConnections (rules : List Precedence) (q : Query) (tables : List Nat) : Prop :=
  ∀ joined next rest, tables = joined ++ next :: rest → joined ≠ [] →
    HasConnection rules q joined → q.Connects next joined

theorem followsConnections_nil (rules : List Precedence) (q : Query) :
    FollowsConnections rules q [] := by
  intro joined next rest heq
  exact absurd heq.symm (by simp)

theorem FollowsConnections.concat {rules : List Precedence} {q : Query} {tables : List Nat}
    {table : Nat} (h : FollowsConnections rules q tables)
    (hnext : tables ≠ [] → HasConnection rules q tables → q.Connects table tables) :
    FollowsConnections rules q (tables ++ [table]) := by
  intro joined next rest heq
  rcases List.eq_nil_or_concat rest with rfl | ⟨rest, last, rfl⟩
  · obtain ⟨rfl, hlast⟩ := List.append_inj' heq rfl
    obtain rfl := List.singleton_inj.1 hlast
    exact hnext
  · rw [List.concat_eq_append, ← List.cons_append, ← List.append_assoc] at heq
    exact h joined next rest (List.append_inj' heq rfl).1

/-! ### Preferences -/

namespace OrderNode

/-- A node that lists some tables prefers those that are connected with them, if there are any. -/
def PrefersConnected (n : OrderNode) (q : Query) : Prop :=
  n.path ≠ #[] → (∃ table ∈ n.actions, q.isConnected table n.joined = true) →
    ∀ table, n.recommended.contains table = true ↔
      table ∈ n.actions ∧ q.isConnected table n.joined = true

end OrderNode

namespace OrderTree

variable {t t' : OrderTree} {q : Query} {limits : Limits}

/-- A tree that avoids Cartesian products: all nodes prefer connected tables. -/
structure PrefersConnected (t : OrderTree) (q : Query) : Prop where
  query_eq : t.query = q
  avoids : t.avoidCartesians = true
  node : ∀ id n, t.node? id = some n → n.PrefersConnected q

/-- **A new node prefers the connected tables.** -/
theorem prefersConnected_makeNode (hle : t.query.nrTables ≤ maxTables)
    (havoids : t.avoidCartesians = true) (path : Array Nat) :
    (t.makeNode path).PrefersConnected t.query := by
  intro hpath ⟨table, htable, hconnected⟩ other
  have hpath : path ≠ #[] := hpath
  generalize hactions : ((List.range t.query.nrTables).filter fun table =>
    !(TableSet.ofList path.toList).contains table) = actions
  have heq : (t.makeNode path).actions.toList = actions := hactions
  have hlt : ∀ t' ∈ actions, t' < maxTables := by
    intro t' ht'
    rw [← hactions] at ht'
    exact Nat.lt_of_lt_of_le (List.mem_range.1 (List.mem_filter.1 ht').1) hle
  rw [← Array.mem_toList_iff, heq] at htable ⊢
  have hmem : table ∈ actions.filter fun table =>
      t.query.isConnected table (TableSet.ofList path.toList) :=
    List.mem_filter.2 ⟨htable, hconnected⟩
  have hcontains (table : Nat) : (TableSet.ofList (actions.filter fun table =>
      t.query.isConnected table (TableSet.ofList path.toList))).contains table = true ↔
        table ∈ actions ∧ t.query.isConnected table (TableSet.ofList path.toList) = true := by
    rw [TableSet.contains_ofList_iff fun t' ht' => hlt t' (List.mem_filter.1 ht').1,
      List.mem_filter]
  have hrecommended : (t.makeNode path).recommended = t.recommendedNext actions
      (TableSet.ofList path.toList) := by
    rw [← hactions]
    unfold makeNode
    dsimp only
    rw [if_neg (by simp [havoids]), if_neg (by simpa using hpath)]
  rw [hrecommended]
  unfold recommendedNext
  dsimp only
  -- A connected table is left, so the connected ones are recommended.
  rw [if_neg fun hempty => ?_]
  · exact hcontains other
  · rw [TableSet.isEmpty_iff] at hempty
    have := (hcontains table).2 (List.mem_filter.1 hmem)
    rw [hempty table] at this
    exact Bool.false_ne_true this

theorem prefersConnected_start {config : Config} (havoids : config.avoidCartesians = true) :
    (start q config).PrefersConnected q := by
  refine ⟨rfl, havoids, fun id n hn => ?_⟩
  obtain rfl := Array.mem_singleton.1 (Array.mem_of_getElem? hn)
  exact fun hpath => absurd rfl hpath

/-- Nodes prefer connected tables as long as they keep their tables, actions and preferences. -/
theorem PrefersConnected.of_map (h : t.PrefersConnected q) (hquery : t'.query = t.query)
    (havoids : t'.avoidCartesians = t.avoidCartesians) {f : Nat → OrderNode → OrderNode}
    (hf : ∀ id n, (f id n).path = n.path ∧ (f id n).joined = n.joined ∧
      (f id n).actions = n.actions ∧ (f id n).recommended = n.recommended)
    (hnodes : ∀ id, t'.node? id = (t.node? id).map (f id)) : t'.PrefersConnected q := by
  refine ⟨hquery.trans h.query_eq, havoids.trans h.avoids, fun id n' hn' => ?_⟩
  rw [hnodes] at hn'
  obtain ⟨n, hn, rfl⟩ := Option.map_eq_some_iff.1 hn'
  obtain ⟨hpath, hjoined, hactions, hrecommended⟩ := hf id n
  have hprefers := h.node id n hn
  unfold OrderNode.PrefersConnected at hprefers ⊢
  rwa [hpath, hjoined, hactions, hrecommended]

theorem PrefersConnected.record (h : t.PrefersConnected q) (id worker action : Nat)
    (reward : Float) : (t.record id worker action reward).PrefersConnected q :=
  h.of_map rfl rfl (fun id' n => by split <;> exact ⟨rfl, rfl, rfl, rfl⟩)
    (node?_record t id worker action reward)

theorem PrefersConnected.forget (h : t.PrefersConnected q) (worker : Nat) :
    (t.forget worker).PrefersConnected q :=
  h.of_map rfl rfl (f := fun _ n => n.forget worker) (fun _ _ => ⟨rfl, rfl, rfl, rfl⟩)
    (node?_forget t worker)

theorem PrefersConnected.expand (h : t.PrefersConnected q) (hle : q.nrTables ≤ maxTables)
    (id action : Nat) : (t.expand id action).PrefersConnected q := by
  rcases expand_cases t id action with heq | ⟨n, -, -, hnodes⟩
  · rwa [heq]
  obtain ⟨hquery, havoids⟩ : (t.expand id action).query = t.query ∧
      (t.expand id action).avoidCartesians = t.avoidCartesians := by
    unfold OrderTree.expand
    split
    · exact ⟨rfl, rfl⟩
    · dsimp only
      split <;> exact ⟨rfl, rfl⟩
  refine ⟨hquery.trans h.query_eq, havoids.trans h.avoids, fun id' n' hn' => ?_⟩
  rw [hnodes] at hn'
  split at hn'
  · -- The new node recommends its own tables; the old ones offer what they did.
    obtain rfl := Option.some.inj hn'
    have hnew := prefersConnected_makeNode (t := t) (h.query_eq ▸ hle) h.avoids
    rw [h.query_eq] at hnew
    exact hnew _
  · obtain ⟨m, hm, rfl⟩ := Option.map_eq_some_iff.1 hn'
    have hprefers := h.node id' m hm
    split <;> exact hprefers

/-- **Every step of an episode keeps the preferences.** -/
theorem prefersConnected_invariant {γ σ : Type} [RandomSource γ] (hle : q.nrTables ≤ maxTables)
    (run : Execute σ) : Run.Invariant q run fun r : Run γ σ =>
      r.tree.IsFor q ∧ r.tree.PrefersConnected q where
  isFor hr := hr.1
  draw hr _ := hr
  execute hr _ _ := hr
  expand hr _ _ _ haction := ⟨hr.1.expand hle haction, hr.2.expand hle _ _⟩
  record hr _ _ _ _ := ⟨hr.1.record _ _ _ _, hr.2.record _ _ _ _⟩

/-- **The trees of a search that avoids Cartesian products prefer connected tables.** -/
theorem Reachable.prefersConnected {config : Config} (hle : q.nrTables ≤ maxTables)
    (havoids : config.avoidCartesians = true) (ht : Reachable q config t) :
    t.PrefersConnected q := by
  induction ht with
  | start => exact prefersConnected_start havoids
  | sample limits execute source world ht ih =>
    exact ((prefersConnected_invariant hle execute).sample hle limits source world
      ⟨(ht.isLinked hle).1, ih⟩).2
  | forget worker _ ih => exact ih.forget worker

/-! ### The next table -/

/-- **In a node that lists tables, a connected table is selected if it may be**, as long as no
action is excluded. -/
theorem isConnected_of_mem_candidates {n : OrderNode} (hn : n.PrefersConnected q)
    (hpath : n.path ≠ #[]) {table : Nat} (htable : table ∈ n.actions)
    (hpermits : permits limits.rules table n.joined = true)
    (hconnected : q.isConnected table n.joined = true) {action : Nat}
    (haction : action ∈ candidates limits ∅ n) :
    q.isConnected (n.tableOf action) n.joined = true := by
  have hprefers := hn hpath ⟨table, htable, hconnected⟩
  obtain ⟨a, ha, rfl⟩ := OrderNode.exists_tableOf htable
  have hadmissible : isAdmissible limits ∅ n a = true := by
    unfold isAdmissible
    simp [hpath, hpermits]
  exact ((hprefers _).1 (recommended_of_mem_candidates haction ha hadmissible
    ((hprefers _).2 ⟨htable, hconnected⟩))).2

/-- A random completion takes a connected table if it may. -/
theorem isConnected_of_nextTable? {remaining : Array Nat} {joined : TableSet} {i table : Nat}
    (h : t.nextTable? limits remaining joined = some i) (htable : table ∈ remaining)
    (hpermits : permits limits.rules table joined = true)
    (hconnected : t.query.isConnected table joined = true) :
    t.query.isConnected (remaining[i]?.getD 0) joined = true := by
  have hlt := lt_of_nextTable? h
  rw [Array.getElem?_eq_getElem hlt, Option.getD_some]
  unfold nextTable? at h
  rcases Option.or_eq_some_iff.1 h with h | ⟨hnone, -⟩
  · obtain ⟨_, hnext, -⟩ := Array.findIdx?_eq_some_iff_getElem.1 h
    exact (Bool.and_eq_true_iff.1 hnext).2
  · have hfails := Array.findIdx?_eq_none_iff.1 hnone table htable
    dsimp only at hfails
    rw [hpermits, hconnected] at hfails
    exact absurd hfails (by decide)

/-- **A random completion follows the join graph.** -/
theorem followsConnections_of_complete? (hq : t.query.Assembled) {rounds : Nat}
    {remaining : Array Nat} {joined : TableSet} {start order : Array Nat}
    (hjoined : joined = .ofList start.toList)
    (hremaining : ∀ table < t.query.nrTables, table ∉ start.toList → table ∈ remaining)
    (hstart : FollowsConnections limits.rules t.query start.toList)
    (h : t.complete? limits rounds remaining joined start = some order) :
    FollowsConnections limits.rules t.query order.toList := by
  induction rounds generalizing remaining joined start with
  | zero =>
    obtain rfl := Option.some.inj h
    exact hstart
  | succ rounds ih =>
    unfold complete? at h
    split at h
    · exact absurd h (by simp)
    rename_i i hi
    have hlt := lt_of_nextTable? hi
    refine ih ?_ (fun table htable hnew => ?_) ?_ h
    · rw [Array.toList_push, TableSet.ofList, List.foldl_append, hjoined]
      rfl
    · rw [Array.toList_push, List.mem_append, List.mem_singleton, not_or] at hnew
      have hmem := (swapRemove_perm remaining hlt).mem_iff.2 (hremaining table htable hnew.1)
      rw [Array.getElem?_eq_getElem hlt, Option.getD_some] at hnew
      exact (Array.mem_push.1 hmem).resolve_right hnew.2
    · rw [Array.toList_push]
      apply hstart.concat
      -- A connected table that may come next is drawn before one that is not connected.
      rintro - ⟨table, htable, hnew, hpermits, hconnects⟩
      rw [← hq.isConnected_iff] at hconnects ⊢
      rw [← hjoined] at hpermits hconnects ⊢
      exact isConnected_of_nextTable? hi (hremaining table htable hnew) hpermits hconnects

/-! ### Episodes -/

/-- **Both ways to join a further table follow the join graph.** -/
theorem guides_followsConnections (hle : q.nrTables ≤ maxTables) (hq : q.Assembled)
    (limits : Limits) :
    Guides q limits (PrefersConnected · q) (FollowsConnections limits.rules q) where
  select hfor hprefers hnode hallows hfollows haction := by
    have hn := hfor.node _ _ hnode
    apply hfollows.concat
    rintro hne ⟨table, htable, hnew, hpermits, hconnects⟩
    rw [← hq.isConnected_iff] at hconnects ⊢
    rw [← hn.joined_eq] at hpermits hconnects ⊢
    -- A table that could be connected is offered here, and so only connected ones are candidates.
    have hoffered := (hn.mem_actions_iff hle).2
      ⟨htable, fun hmem => hnew (Array.mem_toList_iff.2 hmem)⟩
    exact isConnected_of_mem_candidates (hprefers.node _ _ hnode)
      (fun hnil => hne (Array.toList_eq_nil_iff.2 hnil)) hoffered hpermits hconnects haction
  complete hquery _ hremaining hstart horder := by
    subst hquery
    exact followsConnections_of_complete? hq rfl hremaining hstart horder

variable {γ σ : Type} [RandomSource γ] {config : Config} {execute : Execute σ}

/-- **Cartesian products are avoided along every sampled order.**  In a search that avoids them,
every executed order joins a connected table next wherever a remaining table is permitted and
connected.  Without rules and with a connected join graph, all tables but the first are connected
with the tables before them. -/
theorem sample_followsConnections (hle : q.nrTables ≤ maxTables) (hq : q.Assembled)
    (havoids : config.avoidCartesians = true) (ht : Reachable q config t)
    (hexecute : ∀ order world, ¬(execute order world).1 < 0) (limits : Limits) (source : γ)
    (world : σ) :
    ∀ order ∈ (t.sample limits execute.listing source (world, [])).2.world.2,
      FollowsConnections limits.rules q order.toList ∧
      (limits.rules = [] → q.HasConnectedGraph → ∀ joined next rest,
        order.toList = joined ++ next :: rest → joined ≠ [] → q.Connects next joined) := by
  obtain ⟨hfor, hlinked⟩ := ht.isLinked hle
  intro order horder
  have hfollows : FollowsConnections limits.rules q order.toList :=
    sample_listed hle (guides_followsConnections hle hq limits)
      (fun run => prefersConnected_invariant hle run) hfor hlinked
      (ht.prefersConnected hle havoids) (followsConnections_nil _ _) hexecute source world
      order horder
  refine ⟨hfollows, fun hrules hgraph joined next rest heq hne => ?_⟩
  -- The order lists all tables once, so the next table is one that is missing so far.
  have hperm : order.IsPermutation q.nrTables :=
    (sample_keeps hle (execute.listing_keeps fun o => o.IsPermutation q.nrTables) hfor limits
      source (by simp)).world order horder
  have hperm : (joined ++ next :: rest).Perm (List.range q.nrTables) := heq ▸ hperm
  have hlt : ∀ table ∈ joined ++ next :: rest, table < q.nrTables := fun table htable =>
    List.mem_range.1 (hperm.mem_iff.1 htable)
  have hnew : next ∉ joined := fun hmem =>
    (List.nodup_append.1 (hperm.nodup_iff.2 List.nodup_range)).2.2 next hmem next
      List.mem_cons_self rfl
  obtain ⟨table, htable, hmissing, hconnects⟩ := hgraph.exists_connects hq.hasGraph
    (fun table htable => hlt table (List.mem_append_left _ htable)) hne (hlt next (by simp)) hnew
  refine hfollows joined next rest heq hne ⟨table, htable, hmissing, ?_, hconnects⟩
  rw [hrules]
  rfl

/-- A worker that is kept to nothing. -/
def Limits.free : Limits := ⟨0, [], ∅⟩

/-- Counts the executed orders, each of which is worth 1. -/
def Execute.counting : Execute Nat := fun _ count => (1, count + 1)

/-- Two tables that a predicate connects. -/
theorem hasConnectedGraph_sample : Query.sample.HasConnectedGraph := by
  intro a b ha hb
  have hmem : ∀ table < Query.sample.nrTables, table ∈ [0, 1] := by decide
  exact .single ⟨Query.sample.predicates[0], Array.getElem_mem _, hmem a ha, hmem b hb⟩

theorem sample_followsConnections_sample :
    Reachable .sample {} sampled ∧ Query.sample.HasConnectedGraph ∧
      ∃ order, (sampled.sample .free Execute.counting.listing (⟨0⟩ : SplitMix)
          (0, [])).2.world.2 = [order] ∧
        ∀ joined next rest, order.toList = joined ++ next :: rest → joined ≠ [] →
          Query.sample.Connects next joined := by
  have hle : Query.sample.nrTables ≤ maxTables := by decide
  have hexecute (order : JoinOrder) (count : Nat) : ¬(Execute.counting order count).1 < 0 :=
    (by decide : ¬(1 : Float) < 0)
  have hlisting (order : JoinOrder) (world : Nat × List JoinOrder) :
      ¬(Execute.counting.listing order world).1 < 0 := hexecute order world.1
  obtain ⟨hfor, hlinked⟩ := reachable_sampled.isLinked hle
  have hcan : Limits.free.CanComplete Query.sample.nrTables [] :=
    Limits.canComplete_nil_iff.2
      ⟨⟨#[0, 1]⟩, .refl _, fun first _ => TableSet.contains_empty first, rfl⟩
  have hconnected := sample_followsConnections hle Query.built_sample.assembled rfl
    reachable_sampled hexecute .free (⟨0⟩ : SplitMix) 0
  rcases sample_answers hle hfor hlinked hlisting .free (⟨0⟩ : SplitMix) (0, []) with
    ⟨-, order, -, -, hworld⟩ | ⟨hcannot, -⟩
  · -- The episode has executed one order, which is the one listed.
    rw [hworld] at hconnected ⊢
    refine ⟨reachable_sampled, hasConnectedGraph_sample, order, rfl, ?_⟩
    exact (hconnected order (List.mem_singleton_self order)).2 rfl hasConnectedGraph_sample
  · exact absurd hcan hcannot

end OrderTree

end AdaptiveJoin
