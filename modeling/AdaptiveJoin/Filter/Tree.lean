import AdaptiveJoin.Filter.Budgeted
import AdaptiveJoin.Random

/-!
# Learning how to filter a table

A `FilterTree` learns which `FilterChoice` decides the most rows for the fewest evaluations.  The
levels of the tree choose the next predicate, at the root alternatively an index or to evaluate all
predicates in their own order, and below the last predicate the number of batches.

An episode (`FilterTree.sample`) follows the tree from the root, completes the choice at random
where the tree ends, and lets the filter decide one slice.  Untried actions come first; after that
the mean reward and a bonus for rarely tried actions decide.  An action whose slice is refused is
pruned and another one is tried; an episode that asks for too much room ends there.
-/

namespace AdaptiveJoin

/-- What a node of a filter tree can decide. -/
inductive FilterAction where
  /-- To evaluate a predicate next. -/
  | evaluate (predicate : Nat)
  /-- To take the rows from the index of a predicate. -/
  | indexOn (predicate : Nat)
  /-- To evaluate all predicates in their own order. -/
  | conjunctive
  /-- To split slices into batches. -/
  | batches (count : UInt64)
deriving DecidableEq, Repr, Inhabited

/-- The kinds of nodes of a filter tree. -/
inductive FilterNode.Kind where
  | root
  /-- A predicate has been chosen. -/
  | branching
  /-- An index has been chosen. -/
  | index
  /-- All predicates are chosen, and the number of batches comes next. -/
  | rowParallel
  /-- Nothing is left to choose. -/
  | leaf
deriving DecidableEq, Repr, Inhabited

/-- A node of a filter tree. -/
structure FilterNode where
  kind : FilterNode.Kind
  /-- The episode in which the node was created. -/
  createdIn : Nat
  /-- The predicates chosen on the way to the node. -/
  chosen : List Nat
  actions : Array FilterAction
  /-- The node behind every action that has one. -/
  children : Array (Option Nat)
  /-- The tries of every action.  No run reaches 2^64 of them, so they are not kept in words. -/
  tries : Array Nat
  rewards : Array Float
  /-- The tries of all actions, not kept in words either. -/
  visits : Nat
  /-- The actions that have not been selected yet. -/
  untried : Array Nat
  /-- The actions that cannot be applied. -/
  pruned : Array Bool
deriving Inhabited

namespace FilterNode

/-- A node whose actions have not been tried. -/
def start (kind : Kind) (createdIn : Nat) (chosen : List Nat) (actions : Array FilterAction) :
    FilterNode :=
  { kind := kind
    createdIn := createdIn
    chosen := chosen
    actions := actions
    children := Array.replicate actions.size none
    tries := Array.replicate actions.size 0
    rewards := Array.replicate actions.size 0
    visits := 0
    untried := Array.range actions.size
    pruned := Array.replicate actions.size false }

def isPruned (n : FilterNode) (action : Nat) : Bool := n.pruned[action]?.getD false

def triesOf (n : FilterNode) (action : Nat) : Nat := n.tries[action]?.getD 0

/-- The node behind an action. -/
def child? (n : FilterNode) (action : Nat) : Option Nat := n.children[action]?.join

/-- Counts a try of an action. -/
def record (n : FilterNode) (action : Nat) (reward : Float) : FilterNode :=
  { n with
    visits := n.visits + 1
    tries := n.tries.modify action (· + 1)
    rewards := n.rewards.modify action (· + reward) }

/-- Rules out an action. -/
def prune (n : FilterNode) (action : Nat) : FilterNode :=
  { n with pruned := n.pruned.setIfInBounds action true }

/-- The mean reward of an action and a bonus for having been tried rarely. -/
def score (n : FilterNode) (exploration : Float) (action : Nat) : Float :=
  let tries := countToFloat (n.triesOf action)
  n.rewards[action]?.getD 0 / tries +
    exploration * ((countToFloat (max n.visits 1)).log / tries).sqrt

/-- The tried action of the highest score, the first one in a round that starts at `offset`. -/
def bestAction? (n : FilterNode) (exploration : Float) (offset : Nat) : Option Nat :=
  let round := (List.range n.actions.size).map fun k => (offset + k) % n.actions.size
  -- An action that was selected but could not be applied has no tries.
  let candidates := round.filter fun a => !n.isPruned a && n.triesOf a != 0
  (candidates.foldl (fun (best : Option Nat × Float) action =>
    let score := n.score exploration action
    if best.2 < score then (some action, score) else best) (none, -1 / 0)).1

/-- Selects an action: any untried one first, and else the best one.  `none` if no action is
left. -/
def select? {γ : Type} [RandomSource γ] (n : FilterNode) (exploration : Float) (g : γ) :
    Option Nat × FilterNode × γ :=
  let untried := n.untried.filter fun a => !n.isPruned a
  if h : 0 < untried.size then
    let (pick, g) := RandomSource.belowWide g untried.size h
    (some untried[pick], { n with untried := swapRemove untried pick }, g)
  else
    let n := { n with untried := untried }
    if h : 0 < n.actions.size then
      let (offset, g) := RandomSource.belowWide g n.actions.size h
      (n.bestAction? exploration offset, n, g)
    else (none, n, g)

end FilterNode

/-- Adds an action to a choice among some predicates. -/
def FilterChoice.apply (c : FilterChoice) (nrPredicates : Nat) : FilterAction → FilterChoice
  | .evaluate p => { c with order := c.order ++ [p] }
  | .indexOn p => { c with order := c.order ++ [p], indexed := some p }
  | .conjunctive => { c with order := List.range nrPredicates, conjunctive := true }
  | .batches n => { c with batches := n }

/-- Completes the order of a choice in ascending order. -/
def completeOrder (nrPredicates : Nat) (order : List Nat) : List Nat :=
  order ++ (List.range nrPredicates).filter fun p => !order.contains p

/-- The tree over the choices for one table.  Node 0 is the root. -/
structure FilterTree where
  nodes : Array FilterNode
  nrPredicates : Nat
  config : FilterConfig
deriving Inhabited

namespace FilterTree

/-- The tree without episodes; `indexed` tells which predicates have an index. -/
def start (indexed : List Bool) (config : FilterConfig) : FilterTree :=
  let n := indexed.length
  let evaluate := (List.range n).map FilterAction.evaluate
  let indexOn := ((List.range n).filter fun p => indexed[p]?.getD false).map FilterAction.indexOn
  { nodes := #[.start .root 0 [] (evaluate ++ indexOn ++ [FilterAction.conjunctive]).toArray]
    nrPredicates := n
    config := config }

def nrNodes (t : FilterTree) : Nat := t.nodes.size

def node (t : FilterTree) (id : Nat) : FilterNode := t.nodes[id]?.getD default

def root (t : FilterTree) : FilterNode := t.node 0

def modifyNode (t : FilterTree) (id : Nat) (f : FilterNode → FilterNode) : FilterTree :=
  { t with nodes := t.nodes.modify id f }

/-! ### Nodes -/

/-- The bytes of an action. -/
def actionBytes : Nat := 16

/-- The choices of batch counts. -/
def batchActions (c : FilterConfig) : Array FilterAction :=
  (Array.range c.rowParallelActions.toNat).map fun a =>
    .batches (UInt64.ofNat a * c.rowParallelDelta)

/-- The node that chooses the number of batches, `none` if there is no room for its actions. -/
def batchNode? (c : FilterConfig) (episode : Nat) (chosen : List Nat) : Option FilterNode :=
  if hasRoom c.rowParallelActions.toNat actionBytes then
    some (.start .rowParallel episode chosen (batchActions c))
  else none

/-- The node behind an action that chooses a predicate. -/
def predicateNode? (t : FilterTree) (kind : FilterNode.Kind) (episode : Nat) (chosen : List Nat) :
    Option FilterNode :=
  match (List.range t.nrPredicates).filter fun p => !chosen.contains p with
  | [] =>
    if t.config.rowParallelism then batchNode? t.config episode chosen
    else some (.start .leaf episode chosen #[])
  | unchosen => some (.start kind episode chosen (unchosen.map FilterAction.evaluate).toArray)

/-- The node behind an action. -/
def childNode? (t : FilterTree) (parent : FilterNode) (action : FilterAction) (episode : Nat) :
    Option FilterNode :=
  match action with
  | .evaluate p => t.predicateNode? .branching episode (parent.chosen ++ [p])
  | .indexOn p => t.predicateNode? .index episode (parent.chosen ++ [p])
  | .conjunctive => some (.start .leaf episode parent.chosen #[])
  | .batches _ => some (.start .leaf episode parent.chosen #[])

/-- Creates the node behind an action that has none, `none` if there is no room for it.  Nodes of
the same episode have none created. -/
def expand? (t : FilterTree) (id action episode : Nat) : Option FilterTree :=
  let parent := t.node id
  if (parent.child? action).isSome || parent.createdIn == episode then some t
  else
    (t.childNode? parent (parent.actions[action]?.getD default) episode).map fun child =>
      { t with
        nodes := (t.nodes.modify id fun n =>
          { n with children := n.children.setIfInBounds action (some t.nodes.size) }).push child }

/-! ### Episodes -/

/-- What an episode changes: the tree, the random source and the filter. -/
structure Run (γ : Type) where
  tree : FilterTree
  source : γ
  filter : TableFilter

variable {γ : Type} [RandomSource γ]

/-- Lets the filter decide a slice.  A split slice has a size of its own. -/
def Run.execute (r : Run γ) (choice : FilterChoice) : FilterAnswer × Run γ :=
  let config := r.tree.config
  let rows := if 0 < choice.batches then config.parallelRowsPerStep else config.rowsPerStep
  let (answer, filter) := r.filter.execute rows choice
  (answer, { r with filter := filter })

/-- Completes a choice at random behind a node.  The slice is not split unless the node has chosen
the number of batches. -/
def Run.playout (r : Run γ) (id : Nat) (choice : FilterChoice) : FilterAnswer × Run γ :=
  let rest := (Array.range r.tree.nrPredicates).filter fun p => !choice.order.contains p
  let (rest, source) := RandomSource.shuffle rest r.source
  let choice := { choice with order := choice.order ++ rest.toList }
  -- The number of batches is chosen last, so only that node has it in its choice.
  let choice :=
    if (r.tree.node id).kind = .rowParallel then choice else { choice with batches := 0 }
  { r with source := source }.execute choice

/-- Selects an action of a node.  Answers the action and the choice with the action added, `none` if
no action is left. -/
def Run.select? (r : Run γ) (id : Nat) (choice : FilterChoice) :
    Option (Nat × FilterChoice) × Run γ :=
  let (action?, node, source) := (r.tree.node id).select? r.tree.config.explorationWeight r.source
  (action?.map fun action =>
      (action, choice.apply r.tree.nrPredicates (node.actions[action]?.getD default)),
    { r with tree := r.tree.modifyNode id fun _ => node, source := source })

/-- Goes on behind an action: in its node by `descend`, at random if it has none. -/
def Run.follow (descend : Nat → FilterChoice → Run γ → FilterAnswer × Run γ) (id action : Nat)
    (choice : FilterChoice) (r : Run γ) : FilterAnswer × Run γ :=
  match (r.tree.node id).child? action with
  | some child => descend child choice r
  | none => r.playout id choice

/-- Tries actions of a node until a slice is decided, `attempts` of them at most, and creates the
node behind each.  An action that comes to no slice is pruned. -/
def Run.attempt (descend : Nat → FilterChoice → Run γ → FilterAnswer × Run γ) (episode id : Nat)
    (choice : FilterChoice) : Nat → Run γ → FilterAnswer × Run γ
  | 0, r => (.refused, r)
  | attempts + 1, r =>
    match r.select? id choice with
    | (none, r) => (.refused, r)
    | (some (action, branch), r) =>
      match r.tree.expand? id action episode with
      | none => (.overflow, r)
      | some tree =>
        match ({ r with tree := tree } : Run γ).follow descend id action branch with
        | (.decided reward, r) =>
          (.decided reward, { r with tree := r.tree.modifyNode id (·.record action reward) })
        | (.refused, r) =>
          attempt descend episode id choice attempts
            { r with tree := r.tree.modifyNode id (·.prune action) }
        | (.overflow, r) => (.overflow, r)

/-- Goes on with an episode in a node, through `levels` levels at most.  Every attempt but the last
prunes an action of the node. -/
def Run.sampleNode (episode : Nat) : Nat → Nat → FilterChoice → Run γ → FilterAnswer × Run γ
  | 0, _, _, r => (.refused, r)
  | levels + 1, id, choice, r =>
    let node := r.tree.node id
    if node.kind = .leaf then r.execute choice
    else
      r.attempt (sampleNode episode levels) episode id choice (node.actions.size + 1)

/-- Runs an episode.  Episodes are counted from 1.  The tree has a level per predicate, one for the
number of batches and one for leaves. -/
def sample (t : FilterTree) (episode : Nat) (source : γ) (filter : TableFilter) :
    FilterAnswer × Run γ :=
  Run.sampleNode episode (t.nrPredicates + 3) 0 .start ⟨t, source, filter⟩

/-! ### What has been learned -/

/-- The most tried action of a node, the last of several. -/
def mostTried? (n : FilterNode) : Option Nat :=
  (List.range n.actions.size).foldl (fun best a =>
    if n.triesOf a = 0 then best
    else
      match best with
      | some b => if n.triesOf b ≤ n.triesOf a then some a else some b
      | none => some a) none

/-- The choice on the path of the most tried actions from a node on. -/
def bestChoice (t : FilterTree) : Nat → Nat → FilterChoice → FilterChoice
  | 0, _, choice => choice
  | levels + 1, id, choice =>
    let node := t.node id
    match mostTried? node with
    | none => choice
    | some action =>
      let choice := choice.apply t.nrPredicates (node.actions[action]?.getD default)
      match node.child? action with
      | some child => bestChoice t levels child choice
      | none => choice

/-- The order of evaluation that the episodes have preferred. -/
def bestOrder (t : FilterTree) : List Nat :=
  completeOrder t.nrPredicates (t.bestChoice (t.nrPredicates + 3) 0 .start).order

end FilterTree

end AdaptiveJoin
