import AdaptiveJoin.Proofs.Plan.Cache
import AdaptiveJoin.Proofs.Plan.Positions

/-!
# Plans check every predicate once

A cache that has answered any requests makes the plans that an empty one makes
(`PlanCache.plan_afterRequests`), since making a plan keeps it faithful.  So what is known of a plan
is known of the planner, position by position.

* `Plan.ChecksOnce`: every predicate is checked at the position of the last of its tables and
  nowhere else, lookups come first and take their keys from tables joined before.
* `Planner.checksOnce_plan`: the plans of permutations have this property.
* `PlanCache.plan_checksOnce`: so have the plans of a cache, whatever was asked of it before.
-/

namespace AdaptiveJoin

/-! ### What is expected of a plan -/

/-- A plan of an order checks every predicate once, as early as it can be. -/
structure Plan.ChecksOnce (plan : Plan) (p : Planner) (order : JoinOrder) : Prop where
  /-- The order is planned position by position. -/
  positions : ∀ pos, (plan.position? pos).map PositionPlan.table = order.toList[pos]?
  /-- Predicates of the query only are checked. -/
  isPredicate : ∀ pos step, plan.position? pos = some step →
    ∀ id ∈ step.checks, id < p.query.predicates.size
  /-- A predicate is checked at the last of its tables only.  It is left out there if a filter of
  its only table has decided it, unless it is looked up. -/
  checked : ∀ id predicate, p.query.predicates[id]? = some predicate →
    ∃ last < order.size, order.IsLastOf predicate.tables last ∧
      ∀ pos step, plan.position? pos = some step →
        (id ∈ step.checks ↔ pos = last ∧
          (¬(predicate.isUnary = true ∧ p.masked.contains step.table = true) ∨
            step.lookup.map Lookup.predicate = some id))
  nodup : ∀ pos step, plan.position? pos = some step → step.checks.Nodup
  /-- The predicate of a lookup is checked first. -/
  head : ∀ pos step l, plan.position? pos = some step → step.lookup = some l →
    step.checks.head? = some l.predicate
  /-- The key of a lookup is the cell of a table joined before, and of the kind of the index. -/
  source : ∀ pos step l source column, plan.position? pos = some step → step.lookup = some l →
    l.source = .cell source column →
      (∃ earlier < pos, order.tableAt earlier = source.table) ∧
        p.query.column? source = some column ∧ column.kind = l.index.kind
  /-- The rows of the first table of a divided join are not looked up. -/
  first : p.partitioned = true → ∀ step, plan.position? 0 = some step → step.lookup = none

/-! ### Plans of a planner -/

namespace Planner

variable {p : Planner} {joined : TableSet} {table : Nat} {l : Lookup}

/-- No position lists a predicate twice. -/
theorem nodup_checks (p : Planner) (joined : TableSet) (table : Nat) :
    (p.position joined table).checks.Nodup := by
  simp only [position]
  refine List.Nodup.append ?_ (List.nodup_range.filter _) ?_
  · cases p.lookup? joined table <;> simp
  · intro id hfirst hother
    rw [Option.mem_toList] at hfirst
    obtain ⟨-, hne⟩ := List.mem_filter.1 hother
    rw [Bool.and_eq_true, bne_iff_ne] at hne
    exact hne.1 hfirst

/-- Predicates of the query only are checked. -/
theorem lt_of_mem_checks {id : Nat} (h : id ∈ (p.position joined table).checks) :
    id < p.query.predicates.size := by
  obtain ⟨l, hl, rfl⟩ | ⟨predicate, hid, -⟩ := (mem_checks_iff p joined table id).1 h
  · rcases lookup?_eq_some hl with ⟨id, h⟩ | ⟨-, id, h⟩
    · obtain ⟨_, _, _, _, _, _, _, hid, -, -, -, -, -, -, -, rfl⟩ := joinLookup?_eq_some h
      exact (Array.getElem?_eq_some_iff.1 hid).1
    · obtain ⟨_, _, _, _, hid, -, -, -, -, rfl⟩ := constantLookup?_eq_some h
      exact (Array.getElem?_eq_some_iff.1 hid).1
  · exact (Array.getElem?_eq_some_iff.1 hid).1

/-- The predicate of a lookup is checked first. -/
theorem head?_checks (h : p.lookup? joined table = some l) :
    (p.position joined table).checks.head? = some l.predicate := by
  simp only [position, h, Option.map_some, Option.toList_some, List.singleton_append,
    List.head?_cons]

variable {order : JoinOrder}

/-- A position of a plan is what is planned for its table and the tables before. -/
theorem position?_plan_eq_some {pos : Nat} {step : PositionPlan}
    (h : (p.plan order).position? pos = some step) :
    pos < order.size ∧ step = p.position (order.joined pos) (order.tableAt pos) := by
  by_cases hpos : pos < order.size
  · rw [position?_plan p hpos] at h
    exact ⟨hpos, (Option.some.inj h).symm⟩
  · have hlen : order.toList.length ≤ pos := by simpa [JoinOrder.toList, JoinOrder.size] using hpos
    rw [plan, Plan.position?, List.getElem?_toArray, getElem?_positionsFrom,
      List.getElem?_eq_none hlen] at h
    exact absurd h (by simp)

section Permutation

variable (hvalid : p.query.IsValid) (hmakes : ∀ q ∈ p.query.predicates, p.query.Makes q)
  (horder : order.IsPermutation p.query.nrTables)

include hvalid hmakes horder

/-- A position of the plan of a permutation checks a predicate if the position is the last of its
tables, unless a filter has decided it. -/
theorem mem_checks_plan {pos id : Nat} {step : PositionPlan} {predicate : Predicate}
    (hstep : (p.plan order).position? pos = some step)
    (hid : p.query.predicates[id]? = some predicate) :
    id ∈ step.checks ↔ order.IsLastOf predicate.tables pos ∧
      (¬(predicate.isUnary = true ∧ p.masked.contains step.table = true) ∨
        step.lookup.map Lookup.predicate = some id) := by
  have hlt : ∀ q ∈ p.query.predicates, ∀ t ∈ q.tables, t < maxTables :=
    fun q hq t ht => (hvalid.tables_lt q hq t ht).trans_le hvalid.nrTables_le
  obtain ⟨hpos, rfl⟩ := position?_plan_eq_some hstep
  rw [horder.size_eq] at hpos
  rw [mem_checks_iff_isLastOf (fun q hq => (hmakes q hq).describes) hlt horder
    hvalid.nrTables_le hid hpos, Option.map_eq_some_iff]
  rfl

/-- **The plan of a permutation of the tables checks every predicate once.** -/
theorem checksOnce_plan : (p.plan order).ChecksOnce p order where
  positions pos := by
    rw [plan, Plan.position?, List.getElem?_toArray, getElem?_positionsFrom, Option.map_map]
    cases order.toList[pos]? <;> rfl
  isPredicate pos step hstep id hid := by
    obtain ⟨-, rfl⟩ := position?_plan_eq_some hstep
    exact lt_of_mem_checks hid
  checked id predicate hid := by
    have hmem := Array.mem_of_getElem? hid
    -- A predicate has one last table in the order, and that is where it is checked.
    obtain ⟨last, hlast, hisLast⟩ :=
      horder.exists_isLastOf (hvalid.tables_ne_nil _ hmem) (hvalid.tables_lt _ hmem)
    refine ⟨last, horder.size_eq ▸ hlast, hisLast, fun pos step hstep => ?_⟩
    rw [mem_checks_plan hvalid hmakes horder hstep hid]
    refine and_congr_left fun _ => ⟨fun h => ?_, fun h => h ▸ hisLast⟩
    have hpos := (position?_plan_eq_some hstep).1
    exact horder.isLastOf_unique (horder.size_eq ▸ hpos) hlast h hisLast
  nodup pos step hstep := by
    obtain ⟨-, rfl⟩ := position?_plan_eq_some hstep
    exact nodup_checks p _ _
  head pos step l hstep hl := by
    obtain ⟨-, rfl⟩ := position?_plan_eq_some hstep
    exact head?_checks hl
  source pos step l source column hstep hl hsource := by
    obtain ⟨hpos, rfl⟩ := position?_plan_eq_some hstep
    obtain ⟨hjoined, hcolumn⟩ := source_of_lookup? hl hsource
    rw [horder.contains_joined_iff hvalid.nrTables_le (horder.size_eq ▸ hpos.le)] at hjoined
    exact ⟨hjoined, hcolumn⟩
  first hdivided step hstep := by
    obtain ⟨-, rfl⟩ := position?_plan_eq_some hstep
    have hempty : (order.joined 0).isEmpty = true :=
      (horder.isEmpty_joined_iff hvalid.nrTables_le (Nat.zero_le _)).2 rfl
    -- A lookup at the first position is one of a constant, which several workers do not use.
    rw [position_lookup, Option.eq_none_iff_forall_ne_some]
    intro l hl
    rw [lookup?_of_isEmpty hl hempty] at hdivided
    exact absurd hdivided (by decide)

end Permutation

end Planner

/-! ### Plans of a cache -/

namespace PlanCache

/-- The cache after some plans were asked of it. -/
def afterRequests (c : PlanCache) (requests : List JoinOrder) : PlanCache :=
  requests.foldl (fun c order => (c.plan order).2) c

theorem afterRequests_planner (c : PlanCache) (requests : List JoinOrder) :
    (c.afterRequests requests).planner = c.planner := by
  induction requests generalizing c with
  | nil => rfl
  | cons order rest ih => exact (ih _).trans (plan_planner c order)

/-- Answering requests keeps a cache faithful. -/
theorem IsFaithful.afterRequests {c : PlanCache} (h : c.IsFaithful) (requests : List JoinOrder) :
    (c.afterRequests requests).IsFaithful := by
  induction requests generalizing c with
  | nil => exact h
  | cons order rest ih => exact ih (h.plan order)

/-- **A plan does not depend on the requests before.** -/
theorem plan_afterRequests (p : Planner) (requests : List JoinOrder) (order : JoinOrder) :
    (((empty p).afterRequests requests).plan order).1 = p.plan order := by
  rw [plan_eq ((isFaithful_empty p).afterRequests requests), afterRequests_planner]
  rfl

/-- **Whatever was asked of a cache before, its plan of a permutation of the tables is the one that
an empty cache makes, and it checks every predicate once.** -/
theorem plan_checksOnce {q : Query} (catalog : Catalog) (masked : TableSet) (workers : Nat)
    (hvalid : q.validate = .ok ()) (hmakes : ∀ p ∈ q.predicates, q.Makes p)
    (requests : List JoinOrder) {order : JoinOrder} (horder : order.IsPermutation q.nrTables) :
    let planner : Planner := ⟨q, catalog, masked, decide (1 < workers)⟩
    let plan := (((empty planner).afterRequests requests).plan order).1
    plan = ((empty planner).plan order).1 ∧ plan.ChecksOnce planner order := by
  intro planner plan
  have hplan : plan = planner.plan order := plan_afterRequests planner requests order
  refine ⟨hplan.trans (plan_afterRequests planner [] order).symm, ?_⟩
  rw [hplan]
  exact Planner.checksOnce_plan (Query.isValid_of_validate hvalid) hmakes horder

/-- The plan of the sample query that starts at its second table, after the other plan was asked
for: the first table is filtered, and two workers divide the second. -/
theorem plan_checksOnce_sample :
    let order : JoinOrder := ⟨#[1, 0]⟩
    let planner : Planner := ⟨.sample, .empty, .ofList [0], true⟩
    let plan := (((empty planner).afterRequests [⟨#[0, 1]⟩]).plan order).1
    order.IsPermutation Query.sample.nrTables ∧ plan = ((empty planner).plan order).1 ∧
      plan.ChecksOnce planner order := by
  have horder : JoinOrder.IsPermutation ⟨#[1, 0]⟩ Query.sample.nrTables := by decide
  have hmakes : ∀ p ∈ Query.sample.predicates, Query.sample.Makes p :=
    fun p hp => (Query.built_sample.makes p hp).1
  exact ⟨horder, plan_checksOnce .empty (.ofList [0]) 2 Query.validate_sample hmakes
    [⟨#[0, 1]⟩] horder⟩

end PlanCache

end AdaptiveJoin
