import AdaptiveJoin.Search.Tree

/-!
# Dividing the join orders between workers

The join orders are divided along the most tried paths of the search tree.  At a node, half of the
workers has to join the most tried table before the runner-up, and the other half the runner-up
before the most tried table; each half is divided further at the node behind its table.
-/

namespace AdaptiveJoin

namespace OrderTree

/-- The rules of `n` workers, divided from a node on. -/
def partitionFrom (t : OrderTree) (id : Option Nat) (n : Nat) : List (List Precedence) :=
  if n < 2 then List.replicate n []
  else
    match id.map t.ranked with
    | some (hot :: second :: _) =>
      -- Without tries there is nothing that tells the tables apart.
      if hot.visits = 0 then List.replicate n []
      else
        (partitionFrom t hot.child (n / 2)).map (⟨hot.table, second.table⟩ :: ·) ++
          (partitionFrom t second.child (n - n / 2)).map (⟨second.table, hot.table⟩ :: ·)
    | _ => List.replicate n []
termination_by n

/-- The rules of each of some workers. -/
def partition (t : OrderTree) (workers : Nat) : List (List Precedence) :=
  t.partitionFrom (some 0) workers

end OrderTree

end AdaptiveJoin
