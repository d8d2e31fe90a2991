import AdaptiveJoin.Config.Basic
import AdaptiveJoin.Order
import AdaptiveJoin.Query.Basic
import AdaptiveJoin.Random
import AdaptiveJoin.Score
import AdaptiveJoin.Search.Precedence

/-!
# The search tree over join orders

A node of the tree stands for the tables joined so far, its actions for the tables that may follow.
All workers share the tree; each has tries and rewards of its own for every action.

An episode (`OrderTree.sample`) follows the tree from the root, adds at most one node, completes
the order at random where the tree ends, and has the order executed.  The reward is recorded along
the path.  Actions that nobody has tried come first, then those that the worker has not tried, and
then the policy decides.  Orders that the rules of the worker forbid, and first tables of which the
worker has no rows left, are not sampled.
-/

namespace AdaptiveJoin

/-- What one worker knows about the actions of a node. -/
structure ActionStats where
  /-- The tries of every action.  No run reaches 2^64 of them, so they are not kept in words. -/
  tries : Array Nat
  rewards : Array Float
deriving Inhabited

/-- No tries of some actions. -/
def ActionStats.start (nrActions : Nat) : ActionStats :=
  ⟨Array.replicate nrActions 0, Array.replicate nrActions 0⟩

/-- Counts a try of an action. -/
def ActionStats.record (s : ActionStats) (action : Nat) (reward : Float) : ActionStats :=
  ⟨s.tries.modify action (· + 1), s.rewards.modify action (· + reward)⟩

/-- A node of the search tree. -/
structure OrderNode where
  /-- The tables joined so far, the outermost first. -/
  path : Array Nat
  /-- The set of the tables joined so far. -/
  joined : TableSet
  /-- The tables not joined yet. -/
  actions : Array Nat
  /-- The tables that are preferred. -/
  recommended : TableSet
  /-- The node behind every action that has one. -/
  children : Array (Option Nat)
  /-- What each worker knows. -/
  stats : Array ActionStats
deriving Inhabited

namespace OrderNode

def level (n : OrderNode) : Nat := n.path.size

def isLeaf (n : OrderNode) : Bool := n.actions.isEmpty

/-- The table of an action. -/
def tableOf (n : OrderNode) (action : Nat) : Nat := n.actions[action]?.getD 0

/-- The node behind an action. -/
def child? (n : OrderNode) (action : Nat) : Option Nat := n.children[action]?.join

/-- The tries of an action by one worker. -/
def workerTries (n : OrderNode) (worker action : Nat) : Nat :=
  ((n.stats[worker]?.map ActionStats.tries).getD #[])[action]?.getD 0

/-- The tries of an action by all workers. -/
def totalTries (n : OrderNode) (action : Nat) : Nat :=
  n.stats.foldl (fun sum s => sum + s.tries[action]?.getD 0) 0

/-- The rewards of an action for all workers. -/
def totalReward (n : OrderNode) (action : Nat) : Float :=
  n.stats.foldl (fun sum s => sum + s.rewards[action]?.getD 0) 0

/-- The tries of all actions by all workers. -/
def visits (n : OrderNode) : Nat :=
  (List.range n.actions.size).foldl (fun sum action => sum + n.totalTries action) 0

/-- Counts a try of an action by a worker. -/
def record (n : OrderNode) (worker action : Nat) (reward : Float) : OrderNode :=
  { n with stats := n.stats.modify worker (·.record action reward) }

/-- Drops what a worker knows. -/
def forget (n : OrderNode) (worker : Nat) : OrderNode :=
  { n with stats := n.stats.setIfInBounds worker (.start n.actions.size) }

end OrderNode

/-- The search tree of a query.  Node 0 is the root. -/
structure OrderTree where
  query : Query
  workers : Nat
  explorationWeight : Float
  policy : Policy
  epsilon : Float
  avoidCartesians : Bool
  /-- The largest number of nodes. -/
  capacity : Nat
  nodes : Array OrderNode
deriving Inhabited

namespace OrderTree

/-! ### Nodes -/

/-- The first tables that are preferred: base tables with a row for every worker, else base tables,
else all. -/
def recommendedRoots (t : OrderTree) (actions : List Nat) : TableSet :=
  let base := actions.filter fun table => !t.query.isTemporary table
  let large := base.filter fun table => t.workers ≤ t.query.cardinality table
  .ofList (if !large.isEmpty then large else if !base.isEmpty then base else actions)

/-- The next tables that are preferred: those that a predicate connects with the tables joined so
far, else all. -/
def recommendedNext (t : OrderTree) (actions : List Nat) (joined : TableSet) : TableSet :=
  let connected := TableSet.ofList (actions.filter fun table => t.query.isConnected table joined)
  if connected.isEmpty then .ofList actions else connected

/-- The node of the tables joined so far. -/
def makeNode (t : OrderTree) (path : Array Nat) : OrderNode :=
  let joined := TableSet.ofList path.toList
  let actions := (List.range t.query.nrTables).filter fun table => !joined.contains table
  { path := path
    joined := joined
    actions := actions.toArray
    recommended :=
      if !t.avoidCartesians then .ofList actions
      else if path.isEmpty then t.recommendedRoots actions
      else t.recommendedNext actions joined
    children := Array.replicate actions.length none
    stats := Array.replicate t.workers (.start actions.length) }

/-- The tree without episodes.  It always holds the root. -/
def start (query : Query) (config : Config) : OrderTree :=
  let t : OrderTree :=
    { query := query
      workers := max 1 (min config.nrWorkers.toNat maxWorkers)
      explorationWeight := config.explorationWeight
      policy := config.policy
      epsilon := config.epsilon
      avoidCartesians := config.avoidCartesians
      capacity := max 1 (min config.maxTreeNodes.toNat 0xFFFFFFFF)
      nodes := #[] }
  { t with nodes := #[t.makeNode #[]] }

def nrNodes (t : OrderTree) : Nat := t.nodes.size

def node? (t : OrderTree) (id : Nat) : Option OrderNode := t.nodes[id]?

/-- Adds a node behind an action that has none, unless the tree is full. -/
def expand (t : OrderTree) (id action : Nat) : OrderTree :=
  match t.node? id with
  | none => t
  | some n =>
    if (n.child? action).isSome || t.capacity ≤ t.nodes.size then t
    else
      let child := t.makeNode (n.path.push (n.tableOf action))
      { t with
        nodes := (t.nodes.modify id fun n =>
          { n with children := n.children.setIfInBounds action (some t.nodes.size) }).push child }

/-- Counts a try of an action of a node by a worker. -/
def record (t : OrderTree) (id worker action : Nat) (reward : Float) : OrderTree :=
  { t with nodes := t.nodes.modify id (·.record worker action reward) }

/-- Drops everything that a worker knows. -/
def forget (t : OrderTree) (worker : Nat) : OrderTree :=
  { t with nodes := t.nodes.map (·.forget worker) }

/-! ### Selection -/

/-- What an episode of a worker is kept to. -/
structure Limits where
  worker : Nat
  rules : List Precedence
  /-- The tables of which the worker has no rows left. -/
  exhaustedRoots : TableSet

/-- Whether an action of a node may be selected. -/
def isAdmissible (limits : Limits) (excluded : TableSet) (n : OrderNode) (action : Nat) : Bool :=
  let table := n.tableOf action
  !excluded.contains table &&
    !(n.path.isEmpty && limits.exhaustedRoots.contains table) &&
    permits limits.rules table n.joined

/-- The actions to select from: the preferred ones among the admissible ones, else all admissible
ones. -/
def candidates (limits : Limits) (excluded : TableSet) (n : OrderNode) : Array Nat :=
  let admissible := (Array.range n.actions.size).filter (isAdmissible limits excluded n)
  let preferred := admissible.filter fun action => n.recommended.contains (n.tableOf action)
  if preferred.isEmpty then admissible else preferred

/-- The mean reward of an action. -/
def meanReward (n : OrderNode) (action : Nat) : Float :=
  n.totalReward action / countToFloat (n.totalTries action)

/-- The bonus of an action for having been tried rarely. -/
def explorationBonus (n : OrderNode) (logVisits : Float) (action : Nat) : Float :=
  (logVisits / countToFloat (n.totalTries action)).sqrt

/-- The first action of the highest score, the best one so far having the score `bestScore`; an
action without tries is taken at once. -/
def bestAction? (n : OrderNode) (score : Nat → Float) :
    List Nat → Option Nat → Float → Option Nat
  | [], best, _ => best
  | action :: rest, best, bestScore =>
    if n.totalTries action = 0 then some action
    else
      let actionScore := score action
      if bestScore < actionScore then bestAction? n score rest (some action) actionScore
      else bestAction? n score rest best bestScore

/-- The action of the highest mean reward. -/
def bestMean? (n : OrderNode) (actions : List Nat) : Option Nat :=
  bestAction? n (meanReward n) actions none (-1 / 0)

/-- The action of the highest sum of mean reward and exploration bonus. -/
def bestBound? (t : OrderTree) (n : OrderNode) (actions : List Nat) : Option Nat :=
  let logVisits := (countToFloat (max n.visits 1)).log
  bestAction? n
    (fun action => meanReward n action + t.explorationWeight * explorationBonus n logVisits action)
    actions none (-1 / 0)

/-- The members of an array from a position on, round to the one before it. -/
def rotate (a : Array Nat) (offset : Nat) : List Nat :=
  (List.range a.size).map fun k => a[(k + offset) % a.size]?.getD 0

variable {γ σ : Type} [RandomSource γ]

/-- What the policy of the tree selects from some candidates. -/
def selectByPolicy (t : OrderTree) (n : OrderNode) (candidates : Array Nat) (g : γ) :
    Option Nat × γ :=
  match t.policy with
  | .ucb1 => (t.bestBound? n candidates.toList, g)
  | .maxReward => (bestMean? n candidates.toList, g)
  | .random => RandomSource.choose candidates g
  | .epsilonGreedy =>
    let (x, g) := RandomSource.unit g
    if x < t.epsilon then RandomSource.choose candidates g
    else (bestMean? n candidates.toList, g)

/-- Selects an action of a node.  Workers look for untried actions from different positions on, so
that they spread over a new node.  `none` if no action is admissible. -/
def select? (t : OrderTree) (limits : Limits) (excluded : TableSet) (n : OrderNode) (g : γ) :
    Option Nat × γ :=
  let candidates := candidates limits excluded n
  let round := rotate candidates limits.worker
  match candidates[0]? with
  | none => (none, g)
  | some first =>
    -- What nobody has tried comes first, then what the worker has not tried.
    match round.find? fun a => n.totalTries a == 0 with
    | some action => (some action, g)
    | none =>
      match round.find? fun a => n.workerTries limits.worker a == 0 with
      | some action => (some action, g)
      | none =>
        let (choice?, g) := t.selectByPolicy n candidates g
        (choice?.or (some first), g)

/-! ### Episodes -/

/-- The next table of a random completion: the first one that is permitted and connected with the
tables joined so far, else the first one that is permitted. -/
def nextTable? (t : OrderTree) (limits : Limits) (remaining : Array Nat) (joined : TableSet) :
    Option Nat :=
  let permitted (table : Nat) : Bool := permits limits.rules table joined
  (remaining.findIdx? fun table => permitted table && t.query.isConnected table joined).or
    (remaining.findIdx? permitted)

/-- Completes an order with the remaining tables, `rounds` of them at most.  `none` if the rules
permit none of them. -/
def complete? (t : OrderTree) (limits : Limits) :
    Nat → Array Nat → TableSet → Array Nat → Option (Array Nat)
  | 0, _, _, order => some order
  | rounds + 1, remaining, joined, order =>
    match t.nextTable? limits remaining joined with
    | none => none
    | some i =>
      let table := remaining[i]?.getD 0
      complete? t limits rounds (swapRemove remaining i) (joined.insert table)
        (order.push table)

/-- What an episode changes: the tree, the random source, whether a node may still be added, and
the state in which orders are executed. -/
structure Run (γ σ : Type) where
  tree : OrderTree
  source : γ
  canExpand : Bool
  world : σ

/-- How an order is executed: its reward and the new state. -/
abbrev Execute (σ : Type) := JoinOrder → σ → Float × σ

/-- Executes an order. -/
def Run.execute (r : Run γ σ) (execute : Execute σ) (order : Array Nat) :
    Option Float × Run γ σ :=
  let (reward, world) := execute ⟨order⟩ r.world
  (some reward, { r with world := world })

/-- Completes the order of a node and a next table at random, and executes it. -/
def Run.playout (r : Run γ σ) (execute : Execute σ) (limits : Limits) (n : OrderNode)
    (first : Nat) : Option Float × Run γ σ :=
  let (remaining, source) := RandomSource.shuffle (n.actions.filter (· != first)) r.source
  let r := { r with source := source }
  match r.tree.complete? limits remaining.size remaining (n.joined.insert first)
      (n.path.push first) with
  | none => (none, r)
  | some order => r.execute execute order

/-- Adds a node behind an action that has none.  An episode does so at the first occasion only. -/
def Run.expand (r : Run γ σ) (id : Nat) (n : OrderNode) (action : Nat) : Run γ σ :=
  if (n.child? action).isNone && r.canExpand then
    -- A full tree uses up the occasion as well.
    { r with tree := r.tree.expand id action, canExpand := false }
  else r

/-- Goes on behind an action: in its node by `descend`, at random if it has none. -/
def Run.follow (execute : Execute σ) (descend : Nat → Run γ σ → Option Float × Run γ σ)
    (limits : Limits) (id : Nat) (n : OrderNode) (action : Nat) (r : Run γ σ) :
    Option Float × Run γ σ :=
  let r := r.expand id n action
  match (r.tree.node? id).bind (·.child? action) with
  | some child => descend child r
  | none => r.playout execute limits n (n.tableOf action)

/-- Tries actions of a node until the orders behind one of them can be executed, `attempts` of them
at most, and records the reward. -/
def Run.attempt (execute : Execute σ) (descend : Nat → Run γ σ → Option Float × Run γ σ)
    (limits : Limits) (id : Nat) (n : OrderNode) :
    Nat → TableSet → Run γ σ → Option Float × Run γ σ
  | 0, _, r => (none, r)
  | attempts + 1, excluded, r =>
    -- Earlier attempts may have added a node behind an action of this one.
    let n := (r.tree.node? id).getD n
    match r.tree.select? limits excluded n r.source with
    | (none, source) => (none, { r with source := source })
    | (some action, source) =>
      let (reward?, r) := { r with source := source }.follow execute descend limits id n action
      let excluded := excluded.insert (n.tableOf action)
      -- An order that cannot be executed leaves no record of a try.
      match reward? with
      | none => attempt execute descend limits id n attempts excluded r
      | some reward =>
        if reward < 0 then attempt execute descend limits id n attempts excluded r
        else (some reward, { r with tree := r.tree.record id limits.worker action reward })

/-- Goes on with an episode in a node, through `levels` levels at most.  Every attempt but the last
excludes an action of the node. -/
def Run.sampleNode (execute : Execute σ) (limits : Limits) :
    Nat → Nat → Run γ σ → Option Float × Run γ σ
  | 0, _, r => (none, r)
  | levels + 1, id, r =>
    match r.tree.node? id with
    | none => (none, r)
    | some n =>
      if n.isLeaf then r.execute execute n.path
      else
        r.attempt execute (sampleNode execute limits levels) limits id n (n.actions.size + 1) ∅

/-- Samples an order and executes it.  `none` if no order is admissible.  An order whose reward is
negative counts as not executable, and another one is sampled. -/
def sample (t : OrderTree) (limits : Limits) (execute : Execute σ) (source : γ) (world : σ) :
    Option Float × Run γ σ :=
  Run.sampleNode execute limits (t.query.nrTables + 1) 0 ⟨t, source, true, world⟩

/-! ### What has been learned -/

/-- An action with its tries. -/
structure RankedAction where
  table : Nat
  visits : Nat
  child : Option Nat
deriving DecidableEq, Repr, Inhabited

/-- Whether an action is not ranked behind another: the more tries the better, and the smaller
table on a tie. -/
def RankedAction.precedes (a b : RankedAction) : Bool :=
  b.visits < a.visits || (a.visits == b.visits && a.table ≤ b.table)

/-- The actions of a node, the most tried first. -/
def ranked (t : OrderTree) (id : Nat) : List RankedAction :=
  match t.node? id with
  | none => []
  | some n =>
    ((List.range n.actions.size).map fun action =>
      ⟨n.tableOf action, n.totalTries action, n.child? action⟩).mergeSort RankedAction.precedes

/-- The tables on the path of the most tried actions from a node on. -/
def mostTriedPath (t : OrderTree) : Nat → Nat → List Nat
  | 0, _ => []
  | levels + 1, id =>
    match t.ranked id with
    | [] => []
    | top :: _ =>
      if top.visits = 0 then []
      else
        top.table ::
          match top.child with
          | some child => mostTriedPath t levels child
          | none => []

/-- Completes an order in ascending order, tables connected with the ones before them first. -/
def completeConnected (q : Query) : Nat → List Nat → TableSet → List Nat
  | 0, _, _ => []
  | rounds + 1, remaining, joined =>
    match remaining with
    | [] => []
    | first :: _ =>
      let table := (remaining.find? fun table => q.isConnected table joined).getD first
      table :: completeConnected q rounds (remaining.erase table) (joined.insert table)

/-- The order that the episodes have preferred. -/
def bestOrder (t : OrderTree) : JoinOrder :=
  let path := t.mostTriedPath (t.query.nrTables + 1) 0
  let joined := TableSet.ofList path
  let remaining := (List.range t.query.nrTables).filter fun table => !joined.contains table
  .ofList (path ++ completeConnected t.query remaining.length remaining joined)

/-- How often each table came first. -/
def rootVisits (t : OrderTree) : Array Nat :=
  (t.ranked 0).foldl (fun visits a => visits.setIfInBounds a.table a.visits)
    (Array.replicate t.query.nrTables 0)

end OrderTree

end AdaptiveJoin
