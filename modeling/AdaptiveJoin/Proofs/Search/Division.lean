import AdaptiveJoin.Proofs.Search.Shape
import AdaptiveJoin.Search.Partition

/-!
# Divided join orders

A rule is obeyed by the orders in which its first table comes before its second one
(`permitsAll_singleton_iff`), so two opposite rules split the orders into two halves.  Dividing
goes on below each half with tables that are joined later, and hence (`OrderTree.Divides.split`)
every part has an order, every order belongs to a part, and different parts have no order in common
(`OrderTree.partition_divides`).
-/

namespace AdaptiveJoin

/-! ### Orders that obey rules -/

section Rules

variable {rules : List Precedence} {rule : Precedence} {joined : TableSet} {a b n : Nat}
  {order : List Nat}

/-- An order obeys several rules if it obeys each of them. -/
theorem permitsAll_cons (rule : Precedence) (rules : List Precedence) (joined : TableSet)
    (tables : List Nat) : permitsAll (rule :: rules) joined tables =
      (permitsAll [rule] joined tables && permitsAll rules joined tables) := by
  induction tables generalizing joined with
  | nil => rfl
  | cons table rest ih =>
    have hpermits : permits (rule :: rules) table joined =
        (permits [rule] table joined && permits rules table joined) := by
      simp [permits]
    simp only [permitsAll, hpermits, ih]
    cases permits [rule] table joined <;> cases permits rules table joined <;> simp

/-- A table comes before another one exactly if it is among those that are listed first. -/
theorem idxOf_lt_idxOf_iff {done rest : List Nat} (hb : b ∉ done) :
    (done ++ b :: rest).idxOf a < (done ++ b :: rest).idxOf b ↔ a ∈ done := by
  rw [List.idxOf_append, List.idxOf_append, if_neg hb, List.idxOf_cons_self, Nat.zero_add]
  split
  · rename_i ha
    exact ⟨fun _ => ha, fun _ => List.idxOf_lt_length_of_mem ha⟩
  · rename_i ha
    exact ⟨fun h => absurd h (by omega), fun h => absurd h ha⟩

/-- **An order obeys a rule if the first table of the rule comes before the second one.** -/
theorem permitsAll_singleton_iff {done rest : List Nat} (hnodup : (done ++ rest).Nodup)
    (hlt : ∀ table ∈ done ++ rest, table < maxTables) :
    permitsAll [rule] (.ofList done) rest = true ↔ (rule.after ∈ rest →
      (done ++ rest).idxOf rule.before < (done ++ rest).idxOf rule.after) := by
  induction rest generalizing done with
  | nil => simp [permitsAll]
  | cons table rest ih =>
    have hassoc : done ++ table :: rest = done ++ [table] ++ rest := by simp
    have hnew : table ∉ done := fun hmem =>
      (List.nodup_append.1 hnodup).2.2 table hmem table List.mem_cons_self rfl
    have hdone : ∀ t ∈ done, t < maxTables := fun t ht => hlt t (List.mem_append_left _ ht)
    have hinsert : (TableSet.ofList done).insert table = .ofList (done ++ [table]) := by
      rw [TableSet.ofList, TableSet.ofList, List.foldl_append]
      rfl
    have hpermits : permits [rule] table (.ofList done) = true ↔
        (rule.after = table → rule.before ∈ done) := by
      rw [permits, List.all_cons, List.all_nil, Bool.and_true, Bool.or_eq_true, bne_iff_ne,
        TableSet.contains_ofList_iff hdone]
      exact imp_iff_not_or.symm
    rw [permitsAll, Bool.and_eq_true, hpermits, hinsert,
      ih (hassoc ▸ hnodup) (hassoc ▸ hlt), ← hassoc]
    constructor
    · -- The later table of the rule comes now or further behind.
      rintro ⟨hhead, hrest⟩ hmem
      rcases List.mem_cons.1 hmem with heq | hmem
      · rw [heq, idxOf_lt_idxOf_iff hnew]
        exact hhead heq
      · exact hrest hmem
    · intro h
      refine ⟨fun heq => ?_, fun hmem => h (List.mem_cons_of_mem _ hmem)⟩
      have hbefore := h (heq ▸ List.mem_cons_self)
      rwa [heq, idxOf_lt_idxOf_iff hnew] at hbefore

/-- An order of all tables obeys one more rule if the tables of the rule come in this order. -/
theorem permitsAll_cons_iff (hn : n ≤ maxTables) (horder : order.Perm (List.range n)) (hb : b < n) :
    permitsAll (⟨a, b⟩ :: rules) ∅ order = true ↔
      order.idxOf a < order.idxOf b ∧ permitsAll rules ∅ order = true := by
  have hmem : b ∈ order := horder.mem_iff.2 (List.mem_range.2 hb)
  have hnodup : ([] ++ order).Nodup := horder.nodup_iff.2 List.nodup_range
  have hlt : ∀ table ∈ [] ++ order, table < maxTables := fun table htable =>
    lt_of_lt_of_le (List.mem_range.1 (horder.mem_iff.1 htable)) hn
  have hrule : permitsAll [⟨a, b⟩] ∅ order = true ↔ _ := permitsAll_singleton_iff hnodup hlt
  rw [permitsAll_cons, Bool.and_eq_true]
  refine and_congr_left fun _ => hrule.trans ?_
  exact ⟨fun h => h hmem, fun h _ => h⟩

end Rules

namespace OrderTree

/-! ### Dividing orders -/

/-- Some parts, each given by rules, divide the orders of `n` tables: every part has an order, one
that starts with a certain path, every order belongs to a part, and different parts have no order
in common. -/
structure Divides (parts : List (List Precedence)) (path : List Nat) (n : Nat) : Prop where
  exists_order : ∀ rules ∈ parts, ∃ rest, (path ++ rest).Perm (List.range n) ∧
    permitsAll rules ∅ (path ++ rest) = true
  exists_part : ∀ order : List Nat, order.Perm (List.range n) →
    ∃ rules ∈ parts, permitsAll rules ∅ order = true
  eq_or_disjoint : ∀ rules ∈ parts, ∀ rules' ∈ parts, rules = rules' ∨
    ∀ order : List Nat, order.Perm (List.range n) →
      ¬(permitsAll rules ∅ order = true ∧ permitsAll rules' ∅ order = true)

variable {path : List Nat} {n : Nat} {left right : List (List Precedence)} {a b : Nat}

/-- Parts without rules divide the orders. -/
theorem divides_replicate (hpath : ∃ rest, (path ++ rest).Perm (List.range n)) {workers : Nat}
    (hworkers : 0 < workers) : Divides (List.replicate workers []) path n where
  exists_order rules hrules := by
    obtain ⟨rest, hrest⟩ := hpath
    obtain rfl := List.eq_of_mem_replicate hrules
    exact ⟨rest, hrest, permitsAll_nil _ _⟩
  exists_part order _ :=
    ⟨[], List.mem_replicate.2 ⟨by omega, rfl⟩, permitsAll_nil _ _⟩
  eq_or_disjoint rules hrules rules' hrules' :=
    Or.inl ((List.eq_of_mem_replicate hrules).trans (List.eq_of_mem_replicate hrules').symm)

/-- A part of orders that start with a path, and with a table after it that a rule asks for. -/
theorem Divides.exists_order_cons (h : Divides left (path ++ [a]) n) (hn : n ≤ maxTables)
    (hab : a ≠ b) (hb : b < n) (hnew : b ∉ path) {rules : List Precedence} (hrules : rules ∈ left) :
    ∃ rest, (path ++ rest).Perm (List.range n) ∧
      permitsAll (⟨a, b⟩ :: rules) ∅ (path ++ rest) = true := by
  obtain ⟨rest, hrest, hpermits⟩ := h.exists_order rules hrules
  rw [List.append_assoc] at hrest hpermits
  refine ⟨a :: rest, hrest, (permitsAll_cons_iff hn hrest hb).2 ⟨?_, hpermits⟩⟩
  have hfirst : a ∉ path := fun hmem =>
    (List.nodup_append.1 (hrest.nodup_iff.2 List.nodup_range)).2.2 a hmem a List.mem_cons_self rfl
  show (path ++ a :: rest).idxOf a < (path ++ a :: rest).idxOf b
  rw [List.idxOf_append, List.idxOf_append, if_neg hfirst, if_neg hnew, List.idxOf_cons_self,
    List.idxOf_cons_ne _ hab]
  omega

/-- **Two opposite rules divide the orders**, and each half is divided further. -/
theorem Divides.split (hleft : Divides left (path ++ [a]) n)
    (hright : Divides right (path ++ [b]) n) (hn : n ≤ maxTables) (hab : a ≠ b) (ha : a < n)
    (hb : b < n) (hanew : a ∉ path)
    (hbnew : b ∉ path) :
    Divides (left.map (⟨a, b⟩ :: ·) ++ right.map (⟨b, a⟩ :: ·)) path n where
  exists_order rules hrules := by
    rcases List.mem_append.1 hrules with hrules | hrules
    · obtain ⟨_, hpart, rfl⟩ := List.mem_map.1 hrules
      exact hleft.exists_order_cons hn hab hb hbnew hpart
    · obtain ⟨_, hpart, rfl⟩ := List.mem_map.1 hrules
      exact hright.exists_order_cons hn hab.symm ha hanew hpart
  exists_part order horder := by
    have hne : order.idxOf a ≠ order.idxOf b := fun heq =>
      hab ((List.idxOf_inj (horder.mem_iff.2 (List.mem_range.2 ha))).1 heq)
    rcases Nat.lt_or_gt_of_ne hne with hlt | hlt
    · obtain ⟨rules, hrules, hpermits⟩ := hleft.exists_part order horder
      exact ⟨_, List.mem_append_left _ (List.mem_map_of_mem hrules),
        (permitsAll_cons_iff hn horder hb).2 ⟨hlt, hpermits⟩⟩
    · obtain ⟨rules, hrules, hpermits⟩ := hright.exists_part order horder
      exact ⟨_, List.mem_append_right _ (List.mem_map_of_mem hrules),
        (permitsAll_cons_iff hn horder ha).2 ⟨hlt, hpermits⟩⟩
  eq_or_disjoint rules hrules rules' hrules' := by
    -- Parts of one half are told apart there, and parts of different halves by the rules.
    rcases List.mem_append.1 hrules with hrules | hrules <;>
      rcases List.mem_append.1 hrules' with hrules' | hrules' <;>
        obtain ⟨part, hpart, rfl⟩ := List.mem_map.1 hrules <;>
          obtain ⟨part', hpart', rfl⟩ := List.mem_map.1 hrules'
    · refine (hleft.eq_or_disjoint part hpart part' hpart').imp (congrArg _) ?_
      intro hdisjoint order horder
      rw [permitsAll_cons_iff hn horder hb, permitsAll_cons_iff hn horder hb]
      rintro ⟨⟨-, hpermits⟩, -, hpermits'⟩
      exact hdisjoint order horder ⟨hpermits, hpermits'⟩
    · refine Or.inr fun order horder => ?_
      rw [permitsAll_cons_iff hn horder hb, permitsAll_cons_iff hn horder ha]
      rintro ⟨⟨hlt, -⟩, hlt', -⟩
      omega
    · refine Or.inr fun order horder => ?_
      rw [permitsAll_cons_iff hn horder ha, permitsAll_cons_iff hn horder hb]
      rintro ⟨⟨hlt, -⟩, hlt', -⟩
      omega
    · refine (hright.eq_or_disjoint part hpart part' hpart').imp (congrArg _) ?_
      intro hdisjoint order horder
      rw [permitsAll_cons_iff hn horder ha, permitsAll_cons_iff hn horder ha]
      rintro ⟨⟨-, hpermits⟩, -, hpermits'⟩
      exact hdisjoint order horder ⟨hpermits, hpermits'⟩

/-! ### Dividing along the tree -/

variable {t : OrderTree} {q : Query}

/-- Two actions that are ranked first have different tables. -/
theorem table_ne_of_ranked {id : Nat} {m : OrderNode} (hm : t.node? id = some m) (hfor : m.IsFor q)
    {hot second : RankedAction} {rest : List RankedAction}
    (hranked : t.ranked id = hot :: second :: rest) : hot.table ≠ second.table := by
  have hnodup := (ranked_perm hm).nodup_iff.2 hfor.nodup_actions
  rw [hranked, List.map_cons, List.map_cons, List.nodup_cons] at hnodup
  exact fun heq => hnodup.1 (heq ▸ List.mem_cons_self)

theorem length_partitionFrom (t : OrderTree) (id : Option Nat) (workers : Nat) :
    (t.partitionFrom id workers).length = workers := by
  induction workers using Nat.strong_induction_on generalizing id with
  | _ workers ih =>
    unfold partitionFrom
    split
    · exact List.length_replicate
    · split
      · split
        · exact List.length_replicate
        · rw [List.length_append, List.length_map, List.length_map, ih _ (by omega),
            ih _ (by omega)]
          omega
      · exact List.length_replicate

/-- **Dividing from a node on divides the orders**, and every part has an order that starts with
the tables of the node. -/
theorem divides_partitionFrom (hfor : t.IsFor q) (hlinked : t.IsLinked)
    (hle : q.nrTables ≤ maxTables) (workers : Nat) (hworkers : 0 < workers) (id : Option Nat)
    (hpath : ∃ rest, (path ++ rest).Perm (List.range q.nrTables))
    (hnode : ∀ i, id = some i → ∃ m, t.node? i = some m ∧ m.path.toList = path) :
    Divides (t.partitionFrom id workers) path q.nrTables := by
  induction workers using Nat.strong_induction_on generalizing id path with
  | _ workers ih =>
    unfold partitionFrom
    split
    · exact divides_replicate hpath hworkers
    · split
      · rename_i hot second rest hsplit
        split
        · exact divides_replicate hpath hworkers
        · obtain ⟨i, hid, hranked⟩ := Option.map_eq_some_iff.1 hsplit
          obtain ⟨m, hm, rfl⟩ := hnode i hid
          have hmfor := hfor.node i m hm
          have hhot : hot ∈ t.ranked i := hranked ▸ List.mem_cons_self
          have hsecond : second ∈ t.ranked i := by rw [hranked]; simp
          -- The node behind an action lists its table as well, and so do all orders of that half.
          have hhalf : ∀ a ∈ t.ranked i, ∀ half, 0 < half → half < workers →
              Divides (t.partitionFrom a.child half) (m.path.toList ++ [a.table]) q.nrTables := by
            intro a ha half hpos hlt
            have hperm := hmfor.perm_of_mem hle (mem_actions_of_mem_ranked hm ha)
            rw [Array.toList_append, Array.toList_push] at hperm
            refine ih half hlt hpos a.child ⟨_, hperm⟩ fun child hchild => ?_
            obtain ⟨c, hc, hcpath⟩ := hlinked.child_of_mem_ranked hm ha hchild
            exact ⟨c, hc, by rw [hcpath, Array.toList_push]⟩
          obtain ⟨hlt, hnew⟩ := (hmfor.mem_actions_iff hle).1 (mem_actions_of_mem_ranked hm hhot)
          obtain ⟨hlt', hnew'⟩ :=
            (hmfor.mem_actions_iff hle).1 (mem_actions_of_mem_ranked hm hsecond)
          rw [← Array.mem_toList_iff] at hnew hnew'
          exact (hhalf hot hhot _ (by omega) (by omega)).split
            (hhalf second hsecond _ (by omega) (by omega)) hle
            (table_ne_of_ranked hm hmfor hranked) hlt hlt' hnew hnew'
      · exact divides_replicate hpath hworkers

/-- **Dividing the join orders loses none and leaves no worker without one.**  In every tree that
episodes can build, the rules of every worker are obeyed by some order of all tables, every order
obeys the rules of some worker, and two workers have the same rules or no order in common. -/
theorem partition_divides {config : Config} (hle : q.nrTables ≤ maxTables)
    (ht : Reachable q config t) {workers : Nat} (hworkers : 0 < workers) :
    (t.partition workers).length = workers ∧
    (∀ rules ∈ t.partition workers, ∃ order : JoinOrder, order.IsPermutation q.nrTables ∧
      permitsAll rules ∅ order.toList = true) ∧
    (∀ order : JoinOrder, order.IsPermutation q.nrTables →
      ∃ rules ∈ t.partition workers, permitsAll rules ∅ order.toList = true) ∧
    ∀ (i j : Nat) (rules rules' : List Precedence), (t.partition workers)[i]? = some rules →
      (t.partition workers)[j]? = some rules' → rules = rules' ∨
        ∀ order : JoinOrder, order.IsPermutation q.nrTables →
          ¬(permitsAll rules ∅ order.toList = true ∧ permitsAll rules' ∅ order.toList = true) := by
  obtain ⟨hfor, hlinked⟩ := ht.isLinked hle
  have hdivides : Divides (t.partition workers) [] q.nrTables := by
    -- At the root no table has been chosen, so all orders are to be divided.
    refine divides_partitionFrom hfor hlinked hle workers hworkers (some 0)
      ⟨List.range q.nrTables, .refl _⟩ fun i hi => ?_
    obtain ⟨root, hroot, hempty⟩ := hlinked.root
    obtain rfl := Option.some.inj hi
    exact ⟨root, hroot, by rw [hempty]⟩
  refine ⟨length_partitionFrom t _ workers, fun rules hrules => ?_, fun order => ?_, ?_⟩
  · obtain ⟨order, horder, hpermits⟩ := hdivides.exists_order rules hrules
    exact ⟨.ofList order, horder, hpermits⟩
  · exact hdivides.exists_part order.toList
  · intro i j rules rules' hi hj
    exact (hdivides.eq_or_disjoint rules (List.mem_of_getElem? hi) rules'
      (List.mem_of_getElem? hj)).imp_right fun h order => h order.toList

theorem partition_divides_sample : Query.sample.nrTables ≤ maxTables ∧
    Reachable .sample {} sampled ∧ (sampled.partition 3).length = 3 ∧
      ∃ rules ∈ sampled.partition 3, permitsAll rules ∅ [1, 0] = true := by
  have hle : Query.sample.nrTables ≤ maxTables := by decide
  obtain ⟨hlength, -, hcovers, -⟩ :=
    partition_divides hle reachable_sampled (show 0 < 3 by decide)
  exact ⟨hle, reachable_sampled, hlength, hcovers ⟨#[1, 0]⟩ (by decide)⟩

end OrderTree

end AdaptiveJoin
