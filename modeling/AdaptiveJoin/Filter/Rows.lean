import AdaptiveJoin.Episode.Task
import AdaptiveJoin.Filter.Tree

/-!
# The filtered rows of a table

`Query.filterTable` decides all rows of a table by its own predicates and learns on the way in which
order to evaluate them.  The kept rows become the mask that the join looks at instead of evaluating
these predicates again.
-/

namespace AdaptiveJoin

/-- The result of filtering a table. -/
structure FilteredTable where
  table : Nat
  /-- The rows on which all predicates of the table hold, ascending. -/
  rows : List Nat
  /-- The predicates in the order of evaluation that was preferred in the end. -/
  bestOrder : List Nat
  episodes : Nat
deriving DecidableEq, Repr, Inhabited

/-- The mask of those kept rows that are rows of the table. -/
def FilteredTable.toMask (f : FilteredTable) (cardinality : Nat) : RowMask :=
  f.rows.foldl (fun mask row => mask.setIfInBounds row true) (Array.replicate cardinality false)

/-- The mask of the kept rows, `none` if one of them lies beyond the table. -/
def FilteredTable.toMask? (f : FilteredTable) (cardinality : Nat) : Option RowMask :=
  if f.rows.all (· < cardinality) then some (f.toMask cardinality) else none

/-- The index that can supply the rows of a predicate: it equates a column with a constant, and the
column has an index in which the constant has a key. -/
def Query.filterIndex? (q : Query) (catalog : Catalog) (predicate : Nat) : Option FilterIndex :=
  match q.predicates[predicate]?.map Predicate.shape with
  | some (.constantEquality column value) =>
    match catalog.index? column with
    | some index => if index.accepts value then some ⟨index, value⟩ else none
    | none => none
  | _ => none

/-- Runs episodes until all rows are decided.  Answers also the number of episodes; `none` stands
for an episode that asks for too much room, and for episodes without end. -/
def FilterTree.Run.exhaust {γ : Type} [RandomSource γ] (episodes : Nat) (r : FilterTree.Run γ) :
    Option (Nat × FilterTree.Run γ) :=
  if r.filter.isFinished then some (episodes, r)
  else
    match r.tree.sample (episodes + 1) r.source r.filter with
    | (.overflow, _) => none
    | (.decided _, r) => (exhaust (r := r)) (episodes + 1)
    | (.refused, r) => (exhaust (r := r)) (episodes + 1)
partial_fixpoint

/-- Filters a table by the predicates that only this table decides. -/
def Query.filterTable {γ : Type} [RandomSource γ] (q : Query) (table : Nat) (catalog : Catalog)
    (config : FilterConfig) (source : γ) : Option FilteredTable :=
  let predicates := q.unaryPredicates table
  if predicates.isEmpty then some ⟨table, List.range (q.cardinality table), [], 0⟩
  else
    let indexes := predicates.map (q.filterIndex? catalog)
    let filter := TableFilter.start q table predicates indexes
    let tree := FilterTree.start (indexes.map Option.isSome) config
    (FilterTree.Run.exhaust 0 ⟨tree, source, filter⟩).map fun (episodes, r) =>
      { table := table
        rows := r.filter.rows.toList
        bestOrder := r.tree.bestOrder.map fun p => predicates[p]?.getD 0
        episodes := episodes }

end AdaptiveJoin
