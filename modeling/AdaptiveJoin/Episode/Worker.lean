import AdaptiveJoin.Episode.Reward
import Std.Data.HashSet

/-!
# Workers

A worker runs orders one episode at a time.  It goes on from where it remembers the order to have
come, with a snapshot of the progress of all workers, and afterwards records where it has stopped.

An episode has two halves.  `Worker.begin?` reads: the checkpoint to go on from, or that there is
nothing left to do.  `Worker.finish` runs the loops and writes.  Other workers may run between the
two.
-/

namespace AdaptiveJoin

/-- What an episode has achieved. -/
structure Outcome where
  /-- The score of the episode, between 0 and 1. -/
  reward : Float
  /-- Whether the worker's share of the outermost table is joined completely. -/
  exhausted : Bool
  nrResults : Nat
  steps : Nat
deriving Inhabited

/-- A worker: its number, what it remembers, and the results that it has found. -/
structure Worker where
  number : Nat
  memory : Memory
  cursors : Array Cursor
  results : Std.HashSet Tuple
deriving Inhabited

namespace Worker

/-- A worker that has run nothing. -/
def start (task : Task) (number : Nat) : Worker :=
  ⟨number, .start number, Array.replicate task.query.nrTables .fresh, ∅⟩

/-- The checkpoint from which a worker goes on with an order, or the outcome of an episode that has
nothing to do: the result is empty, or the worker has joined its share of the outermost table. -/
def begin? (w : Worker) (task : Task) (progress : Progress) (order : JoinOrder) :
    Except Outcome Checkpoint :=
  if order.isEmpty || task.hasEmptyTable then .error ⟨1, true, 0, 0⟩
  else
    let checkpoint := w.memory.continueFrom progress order
    if checkpoint.finished || progress.isShareFinished order.leftmost w.number then
      .error ⟨0, true, 0, 0⟩
    else .ok checkpoint

/-- The episode of a worker with a plan and a snapshot. -/
def episode (w : Worker) (task : Task) (progress : Progress) (plan : Plan)
    (snapshot : Snapshot) : Episode :=
  { task := task
    order := plan.order
    plan := plan
    cardinalities := progress.cardinalities
    snapshot := snapshot
    worker := w.number
    workers := progress.workers }

/-- Runs an episode from a checkpoint, keeps its results and records where it has stopped. -/
def finish (w : Worker) (e : Episode) (progress : Progress) (checkpoint : Checkpoint) :
    Outcome × Worker × Progress :=
  let (position?, walk) := e.run checkpoint.tuple w.cursors
  let nrResults := walk.emitted.size
  -- An order that is exhausted has left nothing of the search space.
  let reward :=
    if position?.isNone then 1 else e.reward checkpoint.tuple walk.tuple nrResults
  let stop : Checkpoint :=
    { tuple := walk.tuple
      joinIndex := match position? with
        | some pos => pos
        | none => -1
      finished := position?.isNone }
  let (memory, progress) := w.memory.update progress e.order stop
  let w :=
    { w with
      memory := memory
      cursors := walk.cursors
      results := walk.emitted.foldl (fun results tuple => results.insert tuple) w.results }
  (⟨reward, position?.isNone, nrResults, walk.steps⟩, w, progress)

/-- One episode of an order. -/
def execute (w : Worker) (task : Task) (shared : Shared) (order : JoinOrder) :
    Outcome × Worker × Shared :=
  match w.begin? task shared.progress order with
  | .error outcome => (outcome, w, shared)
  | .ok checkpoint =>
    let (plan, plans) := shared.plans.plan order
    let e := w.episode task shared.progress plan shared.progress.snapshot
    let (outcome, w, progress) := w.finish e shared.progress checkpoint
    (outcome, w, ⟨plans, progress⟩)

end Worker

end AdaptiveJoin
