import AdaptiveJoin.Episode.Loops
import AdaptiveJoin.Score

/-!
# The reward of an episode

An episode earns what share of the remaining search space it has left behind, and how many results
it has found for its budget.  One row at a position is worth the share of one row of the position
outside, divided by the number of rows that remain at the position.
-/

namespace AdaptiveJoin

namespace Episode

variable (e : Episode)

/-- The number of rows of the worker's share below a row. -/
def shareRowsBelow (row : Nat) : Nat := (row + e.workers - 1 - e.worker) / e.workers

/-- The number of rows of the worker's share from one row on and below another. -/
def shareRows (start stop : Nat) : Nat := e.shareRowsBelow stop - e.shareRowsBelow start

/-- The rows that remain at a position, and how many of them lie before a row. -/
def remainingRows (pos : Nat) : Nat × (Nat → Nat) :=
  let table := e.tableAt pos
  let cardinality := e.cardinality table
  let offset := min (e.lowerBound pos) cardinality
  let clamp (row : Nat) : Nat := max offset (min row cardinality)
  if pos = 0 then
    (e.shareRows offset cardinality, fun row => e.shareRows offset (clamp row))
  else (cardinality - offset, fun row => clamp row - offset)

/-- The share of the search space between two tuples, from a position on; one row of the position
outside is worth `weight`.  Positions without remaining rows end the sum. -/
def progressFrom (start stop : Tuple) : List Nat → Float → Float → Float
  | [], _, sum => sum
  | pos :: rest, weight, sum =>
    let (remaining, before) := e.remainingRows pos
    if remaining = 0 then sum
    else
      -- From here on `weight` is worth one row of this position.
      let weight := weight / countToFloat remaining
      let table := e.tableAt pos
      let moved :=
        countToFloat (before (stop.row table)) - countToFloat (before (start.row table))
      progressFrom start stop rest weight (sum + moved * weight)

/-- The reward of an episode between two tuples that found some results. -/
def reward (start stop : Tuple) (nrResults : Nat) : Float :=
  let input := clampUnit (e.progressFrom start stop (List.range e.order.size) 1 0)
  let output := clampUnit (safeRatio (countToFloat nrResults) (countToFloat e.task.budget))
  clampUnit (e.task.inputWeight * input + e.task.outputWeight * output)

end Episode

end AdaptiveJoin
