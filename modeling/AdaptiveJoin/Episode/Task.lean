import AdaptiveJoin.Config.Basic
import AdaptiveJoin.Plan
import AdaptiveJoin.Progress.Memory

/-!
# The join that workers share

A `Task` holds what all episodes of one join read: the query, the filtered rows of its tables and
the parameters of an episode.  `Shared` holds what the episodes of all workers write: the plans made
so far and the progress.
-/

namespace AdaptiveJoin

/-- Which rows of a table satisfy the predicates that only this table decides. -/
abbrev RowMask := Array Bool

/-- What all episodes of a join read. -/
structure Task where
  query : Query
  /-- The filtered rows of every table, `none` for tables that are not filtered. -/
  masks : Array (Option RowMask)
  /-- The number of steps of an episode. -/
  budget : Nat
  inputWeight : Float
  outputWeight : Float
  /-- Whether some table has no rows, so that the result is empty. -/
  hasEmptyTable : Bool
deriving Inhabited

/-- What the episodes of all workers write. -/
structure Shared where
  plans : PlanCache
  progress : Progress
deriving Inhabited

/-- The numbers of rows of the tables of a query, none larger than `rowLimit`. -/
def Query.rowCounts (q : Query) : Array Nat :=
  q.tables.map fun t => min t.cardinality rowLimit

/-- The task of a query.  Tables without a mask are not filtered. -/
def Task.ofQuery (q : Query) (masks : Array (Option RowMask)) (config : Config) : Task :=
  { query := q
    masks := (Array.range q.nrTables).map fun t => masks[t]?.join
    budget := max config.budget.toNat 1
    inputWeight := config.inputRewardWeight
    outputWeight := config.outputRewardWeight
    hasEmptyTable := q.rowCounts.any (· == 0) }

/-- The filtered rows of a table. -/
def Task.mask? (t : Task) (table : Nat) : Option RowMask := t.masks[table]?.join

/-- The tables that are filtered. -/
def Task.masked (t : Task) : TableSet :=
  .ofList ((List.range t.query.nrTables).filter fun table => (t.mask? table).isSome)

/-- No plans and no progress yet. -/
def Shared.start (task : Task) (catalog : Catalog) (workers : Nat) : Shared :=
  let progress := Progress.start task.query.rowCounts workers
  { plans := .empty
      { query := task.query
        catalog := catalog
        masked := task.masked
        partitioned := 1 < progress.workers }
    progress := progress }

end AdaptiveJoin
