import AdaptiveJoin.Double.Shortest

/-!
# Configuration

The parameters of a join and of the filters that run before it, their defaults, and the values that
are refused (`Config.validate`).  Counts are 64-bit words.
-/

namespace AdaptiveJoin

/-- The largest number of workers: the width of the masks that record which of them are done. -/
def maxWorkers : Nat := 64

/-- How a node of the search tree chooses once all its actions have been tried. -/
inductive Policy where
  /-- Mean reward and a bonus for rarely tried actions. -/
  | ucb1
  /-- Mean reward. -/
  | maxReward
  /-- Any action. -/
  | random
  /-- Mean reward, or any action with a small probability. -/
  | epsilonGreedy
deriving DecidableEq, Repr, Inhabited

/-- The parameters of the filters of single tables. -/
structure FilterConfig where
  /-- The number of rows of one episode. -/
  rowsPerStep : UInt64 := 1000
  /-- The number of rows of one episode that splits them into batches. -/
  parallelRowsPerStep : UInt64 := 10000
  explorationWeight : Float := 1e-5
  /-- Whether episodes may split their rows into batches. -/
  rowParallelism : Bool := true
  /-- The number of batch counts to choose from. -/
  rowParallelActions : UInt64 := 3
  /-- The difference between neighbouring batch counts. -/
  rowParallelDelta : UInt64 := 2
deriving Inhabited

/-- The parameters of a join. -/
structure Config where
  /-- The number of steps of one episode. -/
  budget : UInt64 := 10000
  inputRewardWeight : Float := 0.5
  outputRewardWeight : Float := 0.5
  explorationWeight : Float := 1e-5
  policy : Policy := .ucb1
  epsilon : Float := 0.1
  /-- Whether workers forget their statistics from time to time. -/
  forget : Bool := true
  /-- The number of episodes before a worker first forgets; it then grows tenfold. -/
  forgetInterval : UInt64 := 100
  /-- Whether tables that no predicate connects with the ones joined so far are avoided. -/
  avoidCartesians : Bool := true
  nrWorkers : UInt64 := 1
  /-- Whether the join orders are divided between the workers. -/
  partitionSearchSpace : Bool := true
  /-- The largest number of nodes of the search tree. -/
  maxTreeNodes : UInt64 := 1048576
  seed : Option UInt64 := none
  /-- The largest number of episodes of all workers. -/
  maxEpisodes : Option UInt64 := none
  /-- The time after which no episode starts, in milliseconds. -/
  timeoutMs : Option UInt64 := none
  /-- Whether tables are filtered before the join. -/
  prefilter : Bool := true
  filter : FilterConfig := {}
deriving Inhabited

/-- A refused configuration. -/
inductive ConfigError where
  | zeroBudget
  | invalidWorkers (got : UInt64)
  | invalidRewardWeights (input output : Float)
  | invalidParameter (name : String) (value : Float)
  | zeroTreeCapacity
  | zeroFilterBudget
  /-- The text is no configuration. -/
  | unreadable

/-- The message of a refused configuration; a text that is no configuration has none. -/
def ConfigError.message? : ConfigError → Option String
  | zeroBudget => some "execution budget must be positive"
  | invalidWorkers got =>
    some ("worker count must be between 1 and " ++ toString maxWorkers ++ ", got " ++
      toString got.toNat)
  | invalidRewardWeights input output =>
    some ("reward weights must be non-negative and sum to 1, got " ++
      (Double.ofFloat input).text ++ " + " ++ (Double.ofFloat output).text)
  | invalidParameter name value =>
    some (name ++ " must be a finite non-negative number, got " ++ (Double.ofFloat value).text)
  | zeroTreeCapacity => some "tree capacity must hold at least the root node"
  | zeroFilterBudget => some "filter rows per step must be positive"
  | unreadable => none

/-- Accepts finite numbers that are not negative. -/
def checkParameter (name : String) (value : Float) : Except ConfigError Unit :=
  if value.isFinite && 0 ≤ value then .ok () else .error (.invalidParameter name value)

/-- Accepts the parameters with which filters run. -/
def FilterConfig.validate (c : FilterConfig) : Except ConfigError Unit :=
  if c.rowsPerStep = 0 ∨ c.parallelRowsPerStep = 0 then .error .zeroFilterBudget
  else checkParameter "filter.exploration_weight" c.explorationWeight

/-- Whether two reward weights are not negative and add up to 1. -/
def admissibleWeights (input output : Float) : Bool :=
  0 ≤ input && 0 ≤ output && ((input + output) - 1).abs < 1e-9

/-- Accepts the parameters with which joins run; the first refused one is reported. -/
def Config.validate (c : Config) : Except ConfigError Unit := do
  if c.budget = 0 then throw .zeroBudget
  if c.nrWorkers = 0 ∨ maxWorkers < c.nrWorkers.toNat then throw (.invalidWorkers c.nrWorkers)
  if !admissibleWeights c.inputRewardWeight c.outputRewardWeight then
    throw (.invalidRewardWeights c.inputRewardWeight c.outputRewardWeight)
  checkParameter "exploration_weight" c.explorationWeight
  checkParameter "epsilon" c.epsilon
  if 1 < c.epsilon then throw (.invalidParameter "epsilon" c.epsilon)
  if c.maxTreeNodes = 0 then throw .zeroTreeCapacity
  c.filter.validate

end AdaptiveJoin
