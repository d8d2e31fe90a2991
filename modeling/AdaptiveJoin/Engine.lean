import AdaptiveJoin.Filter.Rows
import AdaptiveJoin.Query.Validity
import AdaptiveJoin.Search.Team

/-!
# Joining the tables of a query

`Engine.prepare?` checks a configuration and a query, builds the indexes, and filters the tables.
`Engine.join?` then runs the search and collects the result: the tuples of row numbers on which all
predicates hold.  Both answer `none` where the filtering or the search has no end, or a filter asks
for too much room or keeps a row beyond its table.
-/

namespace AdaptiveJoin

/-- Why a join cannot be run. -/
inductive JoinError where
  | index (e : IndexError)
  | query (e : QueryError)
  | config (e : ConfigError)
  /-- A worker has been lost. -/
  | workerLost

/-- The message of an error; a text that is no configuration has none. -/
def JoinError.message? : JoinError → Option String
  | index e => some e.message
  | query e => some e.message
  | config e => e.message?
  | workerLost => some "a search worker panicked"

/-- Orders tuples by their rows, the first table first. -/
def tupleLe (a b : Tuple) : Bool := compareLex a.toList b.toList != .gt

/-- The result of a join. -/
structure JoinResult where
  /-- The result tuples, ascending. -/
  tuples : List Tuple
  /-- The order that the search has preferred. -/
  bestOrder : JoinOrder
  /-- How often each table came first. -/
  tableVisits : Array Nat
  episodesPerWorker : Array Nat
  treeNodes : Nat
  /-- Whether the result is complete. -/
  finished : Bool
deriving Inhabited

namespace JoinResult

def size (r : JoinResult) : Nat := r.tuples.length

def isEmpty (r : JoinResult) : Bool := r.tuples.isEmpty

/-- The number of episodes of all workers. -/
def episodes (r : JoinResult) : Nat := r.episodesPerWorker.foldl (· + ·) 0

end JoinResult

namespace Engine

variable {γ : Type} [RandomSource γ]

/-- The masks of the tables that have predicates of their own, `none` if a filter has no end, asks
for too much room or keeps a row beyond its table. -/
def prefilter (q : Query) (catalog : Catalog) (config : FilterConfig) (source : Nat → γ) :
    Option (Array (Option RowMask)) :=
  (Array.range q.nrTables).mapM fun table =>
    if (q.unaryPredicates table).isEmpty then some none
    else
      (q.filterTable table catalog config (source table)).bind fun filtered =>
        (filtered.toMask? (q.cardinality table)).map some

/-- The indexes of a query, if the configuration and the query can be executed. -/
def catalog? (config : Config) (q : Query) : Except JoinError Catalog := do
  config.validate.mapError .config
  q.validate.mapError .query
  (Catalog.forQuery q).mapError .index

/-- The masks of the tables of a query; no table is filtered unless the configuration says so. -/
def masks? (config : Config) (q : Query) (catalog : Catalog) (source : Nat → γ) :
    Option (Array (Option RowMask)) :=
  if config.prefilter then prefilter q catalog config.filter source
  else some (Array.replicate q.nrTables none)

/-- The team that joins the tables of a query.  Every table and every worker has a random source of
its own. -/
def team? (config : Config) (q : Query) (catalog : Catalog) (tableSource workerSource : Nat → γ) :
    Option (Team γ) :=
  (masks? config q catalog tableSource).map fun masks =>
    Team.start (Task.ofQuery q masks config) catalog config workerSource

/-- Everything up to the search. -/
def prepare? (config : Config) (q : Query) (tableSource workerSource : Nat → γ) :
    Option (Except JoinError (Team γ)) :=
  match catalog? config q with
  | .error e => some (.error e)
  | .ok catalog => (team? config q catalog tableSource workerSource).map .ok

/-- The result that a team has come to. -/
def result (t : Team γ) : JoinResult :=
  { tuples := t.results.toList.mergeSort tupleLe
    bestOrder := t.tree.bestOrder
    tableVisits := t.tree.rootVisits
    episodesPerWorker := t.searchers.map Searcher.episodes
    treeNodes := t.tree.nrNodes
    finished := t.isFinished }

/-- Joins the tables of a query.  `halt` tells before every round of the workers whether the search
is halted. -/
def join? (config : Config) (q : Query) (tableSource workerSource : Nat → γ) (halt : Nat → Bool) :
    Option (Except JoinError JoinResult) :=
  match prepare? config q tableSource workerSource with
  | none => none
  | some (.error e) => some (.error e)
  | some (.ok team) => (team.run halt).map fun team => .ok (result team)

end Engine

end AdaptiveJoin
