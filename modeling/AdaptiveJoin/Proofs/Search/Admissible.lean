import AdaptiveJoin.Proofs.Search.Sampling

/-!
# Admissible orders

A worker may sample the orders that its rules permit and that start with a table of which it has
rows left (`JoinOrder.IsAdmissible`).  A rule asks for a table among the ones joined before, so a
table that is permitted stays permitted while others are joined.  Hence a permitted table can be
taken at once, whatever an admissible order would take first: the remaining tables of that order
still follow (`Limits.CanComplete.concat`).

* `OrderTree.complete?_isSome`: a random completion, which never takes a choice back, succeeds
  whenever there is some permitted completion.
* `OrderTree.exists_select?`: an action is selected whenever one may be.
-/

namespace AdaptiveJoin

/-- Whether some rules let tables join one after another, after the tables joined so far. -/
def permitsAll (rules : List Precedence) : TableSet → List Nat → Bool
  | _, [] => true
  | joined, table :: rest =>
    permits rules table joined && permitsAll rules (joined.insert table) rest

section Rules

/-- Without rules every order is permitted. -/
theorem permitsAll_nil (joined : TableSet) (tables : List Nat) :
    permitsAll [] joined tables = true := by
  induction tables generalizing joined with
  | nil => rfl
  | cons table rest ih => exact Bool.and_eq_true_iff.2 ⟨rfl, ih _⟩

variable {rules : List Precedence} {joined joined' : TableSet} {table : Nat}

/-- A permitted table stays permitted when more tables have been joined. -/
theorem permits_mono (h : ∀ t, joined.contains t = true → joined'.contains t = true)
    (hpermits : permits rules table joined = true) : permits rules table joined' = true := by
  unfold permits at hpermits ⊢
  rw [List.all_eq_true] at hpermits ⊢
  intro rule hrule
  have hbefore := hpermits rule hrule
  rw [Bool.or_eq_true] at hbefore ⊢
  exact hbefore.imp_right (h rule.before)

theorem permitsAll_append (tables rest : List Nat) : permitsAll rules joined (tables ++ rest) =
    (permitsAll rules joined tables &&
      permitsAll rules (tables.foldl TableSet.insert joined) rest) := by
  induction tables generalizing joined with
  | nil => rfl
  | cons table tables ih =>
    rw [List.cons_append, permitsAll, permitsAll, ih, Bool.and_assoc]
    rfl

theorem TableSet.insert_comm (s : TableSet) (a b : Nat) :
    (s.insert a).insert b = (s.insert b).insert a := by
  rw [TableSet.eq_iff_contains]
  intro t
  simp only [TableSet.contains_insert, Bool.or_right_comm]

/-- **Joining a table first does no harm to the others.** -/
theorem permitsAll_erase {tables : List Nat} (h : permitsAll rules joined tables = true)
    (first : Nat) : permitsAll rules (joined.insert first) (tables.erase first) = true := by
  induction tables generalizing joined with
  | nil => rfl
  | cons table rest ih =>
    obtain ⟨htable, hrest⟩ := Bool.and_eq_true_iff.1 h
    by_cases heq : table = first
    · rw [heq, List.erase_cons_head]
      rwa [heq] at hrest
    · rw [List.erase_cons_tail (by simpa using heq)]
      refine Bool.and_eq_true_iff.2 ⟨permits_mono (fun t ht => ?_) htable, ?_⟩
      · rw [TableSet.contains_insert, ht, Bool.true_or]
      · rw [TableSet.insert_comm]
        exact ih hrest

end Rules

namespace OrderTree

/-- Some tables may be joined one after another, from the first table on. -/
structure Limits.Allows (limits : Limits) (tables : List Nat) : Prop where
  root : ∀ first, tables.head? = some first → limits.exhaustedRoots.contains first = false
  rules : permitsAll limits.rules ∅ tables = true

/-- Some tables can be completed to an order of `n` tables that may be sampled. -/
def Limits.CanComplete (limits : Limits) (n : Nat) (tables : List Nat) : Prop :=
  ∃ rest, (tables ++ rest).Perm (List.range n) ∧ limits.Allows (tables ++ rest)

end OrderTree

/-- An order that a worker may sample: it lists all tables, the worker has rows left of the first
one, and the rules permit every table after the ones before it. -/
structure JoinOrder.IsAdmissible (o : JoinOrder) (limits : OrderTree.Limits) (n : Nat) : Prop where
  isPermutation : o.IsPermutation n
  allows : limits.Allows o.toList

namespace OrderTree

namespace Limits

variable {limits : Limits} {n table : Nat} {tables rest : List Nat}

theorem allows_nil : limits.Allows [] := ⟨fun _ h => absurd h (by simp), rfl⟩

theorem allows_concat_iff : limits.Allows (tables ++ [table]) ↔ limits.Allows tables ∧
    (tables = [] → limits.exhaustedRoots.contains table = false) ∧
      permits limits.rules table (.ofList tables) = true := by
  have hrules : permitsAll limits.rules ∅ (tables ++ [table]) = true ↔
      permitsAll limits.rules ∅ tables = true ∧
        permits limits.rules table (.ofList tables) = true := by
    rw [permitsAll_append, Bool.and_eq_true]
    show _ ∧ (permits limits.rules table (.ofList tables) && true) = true ↔ _
    rw [Bool.and_true]
  constructor
  · rintro ⟨hroot, hpermits⟩
    rw [hrules] at hpermits
    refine ⟨⟨fun first hfirst => hroot first ?_, hpermits.1⟩, fun hnil => hroot table ?_,
      hpermits.2⟩
    · -- The first table of the tables before stays the first one.
      rw [List.head?_append, hfirst, Option.some_or]
    · rw [hnil]
      rfl
  · rintro ⟨⟨hroot, hpermits⟩, hfirst, htable⟩
    refine ⟨fun first hhead => ?_, hrules.2 ⟨hpermits, htable⟩⟩
    cases tables with
    | nil =>
      -- The table itself is the first one.
      obtain rfl := Option.some.inj hhead
      exact hfirst rfl
    | cons t ts => exact hroot first hhead

theorem Allows.of_append (h : limits.Allows (tables ++ rest)) : limits.Allows tables where
  root first hfirst := h.root first (by rw [List.head?_append, hfirst, Option.some_or])
  rules := by
    have := h.rules
    rw [permitsAll_append, Bool.and_eq_true] at this
    exact this.1

theorem CanComplete.of_concat (h : limits.CanComplete n (tables ++ [table])) :
    limits.CanComplete n tables := by
  obtain ⟨rest, hperm, hallows⟩ := h
  rw [List.append_assoc] at hperm hallows
  exact ⟨_, hperm, hallows⟩

/-- **Taking an allowed table at once leaves a completion.** -/
theorem CanComplete.concat (h : limits.CanComplete n tables)
    (hallows : limits.Allows (tables ++ [table])) (hlt : table < n) (hnew : table ∉ tables) :
    limits.CanComplete n (tables ++ [table]) := by
  obtain ⟨rest, hperm, hrest⟩ := h
  have hmem : table ∈ rest := by
    have := hperm.mem_iff.2 (List.mem_range.2 hlt)
    exact (List.mem_append.1 this).resolve_left hnew
  refine ⟨rest.erase table, ?_, fun first hfirst => hallows.root first ?_, ?_⟩
  · rw [List.append_assoc]
    exact ((List.perm_cons_erase hmem).symm.append_left tables).trans hperm
  · rwa [List.head?_append_of_ne_nil _ (by simp)] at hfirst
  · have hpermits := hrest.rules
    rw [permitsAll_append, Bool.and_eq_true] at hpermits
    rw [permitsAll_append, Bool.and_eq_true, List.foldl_append]
    exact ⟨hallows.rules, permitsAll_erase hpermits.2 table⟩

/-- A completion of too few tables starts with a table. -/
theorem CanComplete.exists_next (h : limits.CanComplete n tables) (hlt : tables.length < n) :
    ∃ table < n, table ∉ tables ∧ limits.Allows (tables ++ [table]) := by
  obtain ⟨rest, hperm, hallows⟩ := h
  cases rest with
  | nil =>
    have := hperm.length_eq
    rw [List.append_nil, List.length_range] at this
    omega
  | cons table rest =>
    have hnodup := hperm.nodup_iff.2 List.nodup_range
    rw [List.nodup_append] at hnodup
    refine ⟨table, ?_, fun hmem => hnodup.2.2 table hmem table List.mem_cons_self rfl, ?_⟩
    · exact List.mem_range.1 (hperm.mem_iff.1 (by simp))
    · rw [List.append_cons] at hallows
      exact hallows.of_append

theorem canComplete_nil_iff :
    limits.CanComplete n [] ↔ ∃ order : JoinOrder, order.IsAdmissible limits n := by
  constructor
  · rintro ⟨rest, hperm, hallows⟩
    exact ⟨.ofList rest, hperm, hallows⟩
  · rintro ⟨order, hperm, hallows⟩
    exact ⟨order.toList, hperm, hallows⟩

end Limits

/-! ### Random completion -/

section Completion

variable {t : OrderTree} {limits : Limits} {remaining : Array Nat} {joined : TableSet} {i : Nat}

/-- The next table of a completion is permitted. -/
theorem permits_of_nextTable? (h : t.nextTable? limits remaining joined = some i) :
    permits limits.rules (remaining[i]?.getD 0) joined = true := by
  have hlt := lt_of_nextTable? h
  rw [Array.getElem?_eq_getElem hlt, Option.getD_some]
  unfold nextTable? at h
  rcases Option.or_eq_some_iff.1 h with h | ⟨-, h⟩
  · obtain ⟨_, hpermits, -⟩ := Array.findIdx?_eq_some_iff_getElem.1 h
    exact (Bool.and_eq_true_iff.1 hpermits).1
  · obtain ⟨_, hpermits, -⟩ := Array.findIdx?_eq_some_iff_getElem.1 h
    exact hpermits

/-- There is a next table if one is permitted. -/
theorem exists_nextTable? {table : Nat} (hmem : table ∈ remaining)
    (hpermits : permits limits.rules table joined = true) :
    ∃ i, t.nextTable? limits remaining joined = some i := by
  rw [← Option.isSome_iff_exists]
  unfold nextTable?
  rw [Option.isSome_or, Bool.or_eq_true]
  refine Or.inr ?_
  rw [Array.findIdx?_isSome, Array.any_eq_true']
  exact ⟨table, hmem, hpermits⟩

/-- A completed order is permitted from the tables it starts with on. -/
theorem permitsAll_of_complete? {rounds : Nat} {start order : Array Nat}
    (h : t.complete? limits rounds remaining joined start = some order) :
    ∃ rest, order.toList = start.toList ++ rest ∧ permitsAll limits.rules joined rest = true := by
  induction rounds generalizing remaining joined start with
  | zero =>
    obtain rfl := Option.some.inj h
    exact ⟨[], (List.append_nil _).symm, rfl⟩
  | succ rounds ih =>
    unfold complete? at h
    split at h
    · exact absurd h (by simp)
    · rename_i i hi
      -- The next table is permitted behind those joined, and the rest behind it.
      obtain ⟨rest, horder, hrest⟩ := ih h
      refine ⟨remaining[i]?.getD 0 :: rest, ?_, Bool.and_eq_true_iff.2
        ⟨permits_of_nextTable? hi, hrest⟩⟩
      rw [horder, Array.toList_push, List.append_assoc]
      rfl

/-- **A completion is found if there is one**, although no choice is ever taken back. -/
theorem complete?_isSome {rounds : Nat} {start : Array Nat} (hrounds : rounds = remaining.size)
    {rest : List Nat} (hperm : rest.Perm remaining.toList)
    (hrest : permitsAll limits.rules joined rest = true) :
    ∃ order, t.complete? limits rounds remaining joined start = some order := by
  induction rounds generalizing remaining joined start rest with
  | zero => exact ⟨start, rfl⟩
  | succ rounds ih =>
    unfold complete?
    have hlength : rest.length = remaining.size := hperm.length_eq
    -- Some completion starts with a permitted table, so one is taken, maybe another one.
    obtain ⟨i, hi⟩ : ∃ i, t.nextTable? limits remaining joined = some i := by
      cases rest with
      | nil =>
        rw [List.length_nil] at hlength
        omega
      | cons table rest =>
        exact exists_nextTable? (Array.mem_toList_iff.1 (hperm.mem_iff.1 List.mem_cons_self))
          (Bool.and_eq_true_iff.1 hrest).1
    rw [hi]
    have hlt := lt_of_nextTable? hi
    have hremoved := swapRemove_perm remaining hlt
    have hsize := hremoved.size_eq
    rw [Array.size_push] at hsize
    dsimp only
    rw [Array.getElem?_eq_getElem hlt, Option.getD_some]
    have hsplit : remaining.toList.Perm (remaining[i] :: (swapRemove remaining i).toList) := by
      have := Array.perm_iff_toList_perm.1 hremoved
      rw [Array.toList_push] at this
      exact this.symm.trans List.perm_append_comm
    refine ih (by omega) ?_ (permitsAll_erase hrest remaining[i])
    have herase := (hperm.trans hsplit).erase remaining[i]
    rwa [List.erase_cons_head] at herase

end Completion

/-! ### Selection -/

section Selection

variable {γ : Type} [RandomSource γ] {t : OrderTree} {limits : Limits} {excluded : TableSet}
  {n : OrderNode} {g : γ} {action : Nat}

/-- A candidate is admissible. -/
theorem isAdmissible_of_mem_candidates (h : action ∈ candidates limits excluded n) :
    isAdmissible limits excluded n action = true := by
  unfold candidates at h
  dsimp only at h
  split at h
  · exact (Array.mem_filter.1 h).2
  · exact (Array.mem_filter.1 (Array.mem_filter.1 h).1).2

/-- **Preferred tables come first**: if some admissible action is preferred, all candidates are. -/
theorem recommended_of_mem_candidates (h : action ∈ candidates limits excluded n) {a : Nat}
    (hlt : a < n.actions.size) (hadmissible : isAdmissible limits excluded n a = true)
    (hpreferred : n.recommended.contains (n.tableOf a) = true) :
    n.recommended.contains (n.tableOf action) = true := by
  have hmem : a ∈ ((Array.range n.actions.size).filter (isAdmissible limits excluded n)).filter
      fun action => n.recommended.contains (n.tableOf action) :=
    Array.mem_filter.2 ⟨Array.mem_filter.2 ⟨Array.mem_range.2 hlt, hadmissible⟩, hpreferred⟩
  unfold candidates at h
  dsimp only at h
  split at h
  · rename_i hempty
    rw [Array.isEmpty_iff.1 hempty] at hmem
    exact absurd hmem (Array.not_mem_empty a)
  · exact (Array.mem_filter.1 h).2

/-- There are candidates if an action is admissible. -/
theorem candidates_ne_empty (hlt : action < n.actions.size)
    (h : isAdmissible limits excluded n action = true) : candidates limits excluded n ≠ #[] := by
  have hmem : action ∈ (Array.range n.actions.size).filter (isAdmissible limits excluded n) :=
    Array.mem_filter.2 ⟨Array.mem_range.2 hlt, h⟩
  unfold candidates
  dsimp only
  split
  · intro hnil
    rw [hnil] at hmem
    exact absurd hmem (Array.not_mem_empty _)
  · rename_i hpreferred
    simpa using hpreferred

/-- **An action is selected if one is admissible.** -/
theorem exists_select? (hlt : action < n.actions.size)
    (h : isAdmissible limits excluded n action = true) (g : γ) :
    ∃ selected, (t.select? limits excluded n g).1 = some selected := by
  have hpos := Array.size_pos_iff.2 (candidates_ne_empty hlt h)
  unfold select?
  dsimp only
  rw [Array.getElem?_eq_getElem hpos]
  dsimp only
  split
  · exact ⟨_, rfl⟩
  · split
    · exact ⟨_, rfl⟩
    · exact ⟨_, by rw [Option.or_some]⟩

end Selection

end OrderTree

end AdaptiveJoin
