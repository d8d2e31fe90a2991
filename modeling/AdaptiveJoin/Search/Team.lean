import AdaptiveJoin.Episode.Worker
import AdaptiveJoin.Search.Partition

/-!
# A team of workers

The workers of a join take turns.  In a turn (`Team.turn`) a worker samples an order from the shared
search tree and executes one episode of it, unless the search is over or the worker has nothing left
to do.  A search is over when the result is complete, when the limit on episodes is reached, or when
it is halted from outside; the latter is asked before every episode.

A worker forgets its statistics after a number of episodes that grows tenfold each time.  It is then
also given its part of the join orders.  A part without an admissible order is given up again.
-/

namespace AdaptiveJoin

/-- A worker in the search. -/
structure Searcher (γ : Type) where
  worker : Worker
  source : γ
  /-- The rules that keep the worker to its part of the join orders. -/
  rules : List Precedence
  /-- The number of episodes after which the worker forgets next. -/
  nextForget : Nat
  episodes : Nat
  /-- Whether the worker has stopped. -/
  stopped : Bool

/-- The workers of a join and what they share. -/
structure Team (γ : Type) where
  task : Task
  config : Config
  tree : OrderTree
  shared : Shared
  searchers : Array (Searcher γ)
  /-- The number of episodes asked for so far. -/
  claimed : Nat

namespace Team

variable {γ : Type} [RandomSource γ]

/-- A team before its search; the workers have random sources of their own. -/
def start (task : Task) (catalog : Catalog) (config : Config) (source : Nat → γ) : Team γ :=
  let shared := Shared.start task catalog config.nrWorkers.toNat
  { task := task
    config := config
    tree := .start task.query config
    shared := shared
    searchers := (Array.range shared.progress.workers).map fun number =>
      { worker := .start task number
        source := source number
        rules := []
        nextForget := max config.forgetInterval.toNat 1
        episodes := 0
        stopped := false }
    claimed := 0 }

def workers (t : Team γ) : Nat := t.shared.progress.workers

/-- The tables of which a worker has no rows left. -/
def exhaustedRoots (t : Team γ) (worker : Nat) : TableSet :=
  let progress := t.shared.progress
  .ofList ((List.range progress.nrTables).filter fun table =>
    progress.isShareFinished table worker)

/-- Samples an order for a searcher and executes it. -/
def sample (t : Team γ) (s : Searcher γ) : Option Float × OrderTree.Run γ (Worker × Shared) :=
  let limits : OrderTree.Limits :=
    ⟨s.worker.number, s.rules, t.exhaustedRoots s.worker.number⟩
  let execute : OrderTree.Execute (Worker × Shared) := fun order (worker, shared) =>
    let (outcome, worker, shared) := worker.execute t.task shared order
    (outcome.reward, worker, shared)
  t.tree.sample limits execute s.source (s.worker, t.shared)

/-- The episode of a searcher.  Rules that leave no admissible order are dropped; a searcher without
rules that has no admissible order stops. -/
def episode (t : Team γ) (s : Searcher γ) : Team γ × Searcher γ :=
  let (reward?, r) := t.sample s
  let (worker, shared) := r.world
  let t := { t with tree := r.tree, shared := shared }
  let s := { s with worker := worker, source := r.source, episodes := s.episodes + 1 }
  -- An order that is executed has a reward that is not negative.
  if reward?.any (0 ≤ ·) then (t, s)
  else if s.rules.isEmpty then (t, { s with stopped := true })
  else (t, { s with rules := [] })

/-- Lets a searcher forget if it has come to that, and gives it its part of the join orders. -/
def refresh (t : Team γ) (s : Searcher γ) : Team γ × Searcher γ :=
  if !s.stopped && t.config.forget && s.nextForget ≤ s.episodes then
    let t := { t with tree := t.tree.forget s.worker.number }
    -- A number of episodes that no run reaches is as good as never.
    let s := { s with nextForget := s.nextForget * 10 }
    if t.config.partitionSearchSpace && 1 < t.workers then
      (t, { s with rules := (t.tree.partition t.workers)[s.worker.number]?.getD [] })
    else (t, s)
  else (t, s)

/-- Whether one more episode would be more than the limit. -/
def limitReached (t : Team γ) : Bool :=
  t.config.maxEpisodes.any fun limit => limit.toNat ≤ t.claimed

/-- The turn of a worker: it stops if the search is halted or over, and else runs an episode. -/
def turn (t : Team γ) (halted : Bool) (number : Nat) : Team γ :=
  match t.searchers[number]? with
  | none => t
  | some s =>
    if s.stopped then t
    else
      let (t, s) :=
        -- Only a search that goes on asks for an episode.
        if halted || t.shared.progress.isFinished then (t, { s with stopped := true })
        else if t.limitReached then
          ({ t with claimed := t.claimed + 1 }, { s with stopped := true })
        else
          let (t, s) := episode { t with claimed := t.claimed + 1 } s
          t.refresh s
      { t with searchers := t.searchers.setIfInBounds number s }

/-- Whether all workers have stopped. -/
def isDone (t : Team γ) : Bool := t.searchers.all Searcher.stopped

/-- One turn of every worker. -/
def round (t : Team γ) (halted : Bool) : Team γ :=
  (List.range t.workers).foldl (fun t number => t.turn halted number) t

/-- Runs rounds until all workers have stopped.  `halt` tells whether the search is halted before a
round; `none` stands for rounds without end. -/
def rounds (halt : Nat → Bool) (number : Nat) (t : Team γ) : Option (Team γ) :=
  if t.isDone then some t else (rounds halt (t := t.round (halt number))) (number + 1)
partial_fixpoint

/-- Runs the search to its end. -/
def run (t : Team γ) (halt : Nat → Bool) : Option (Team γ) := t.rounds halt 0

/-- Whether the result is complete. -/
def isFinished (t : Team γ) : Bool := t.task.hasEmptyTable || t.shared.progress.isFinished

/-- The results of all workers. -/
def results (t : Team γ) : Std.HashSet Tuple :=
  t.searchers.foldl (fun all s => s.worker.results.fold (fun all tuple => all.insert tuple) all) ∅

end Team

end AdaptiveJoin
