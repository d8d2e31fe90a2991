import AdaptiveJoin.Config.Basic
import AdaptiveJoin.Json.Reader

/-!
# Reading configurations

A configuration is written as a JSON object whose members replace default values; unknown members
are passed over, and no known member may be given twice.  It may also be written as an array of the
values of the first fields, in the order of their declaration.  Counts are written as integers, and
`null` stands for an optional count that is not given.
-/

namespace AdaptiveJoin

/-! ### Values of fields -/

def Json.toCount? : Json → Option UInt64
  | .number x => x.toUInt64?
  | _ => none

def Json.toOptionalCount? : Json → Option (Option UInt64)
  | .null => some none
  | v => v.toCount?.map some

def Json.toFloat? : Json → Option Float
  | .number x => x.toFloat?
  | _ => none

def Json.toBool? : Json → Option Bool
  | .bool b => some b
  | _ => none

/-- The policy of a name. -/
def Policy.ofName? (name : String) : Option Policy :=
  match name with
  | "ucb1" => some .ucb1
  | "max_reward" => some .maxReward
  | "random" => some .random
  | "epsilon_greedy" => some .epsilonGreedy
  | _ => none

/-- A policy is its name, or an object with its name as the only key and no value. -/
def Json.toPolicy? : Json → Option Policy
  | .string units => (textOfUnits? units).bind Policy.ofName?
  | .object [(key, .null)] => (textOfUnits? key).bind Policy.ofName?
  | _ => none

/-! ### Records -/

/-- A field of a record: its name and how its value replaces that of a record. -/
structure RecordField (α : Type) where
  name : String
  set? : α → Json → Option α

/-- Reads the members of an object into a record.  `seen` are the names read so far. -/
def readMembers? {α : Type} (fields : List (RecordField α)) :
    List (List Nat × Json) → List String → α → Option α
  | [], _, record => some record
  | (key, v) :: rest, seen, record =>
    match Json.textOfUnits? key with
    | none => none
    | some name =>
      match fields.find? (·.name == name) with
      -- Unknown members may be given twice.
      | none => readMembers? fields rest seen record
      | some field =>
        if seen.contains name then none
        else
          match field.set? record v with
          | none => none
          | some record => readMembers? fields rest (name :: seen) record

/-- Reads the items of an array into the fields of a record in turn. -/
def readItems? {α : Type} : List (RecordField α) → List Json → α → Option α
  | _, [], record => some record
  | [], _ :: _, _ => none
  | field :: fields, v :: rest, record =>
    match field.set? record v with
    | none => none
    | some record => readItems? fields rest record

/-- Reads a record: an object of some of its fields, or an array of its first ones. -/
def readRecord? {α : Type} (fields : List (RecordField α)) (record : α) : Json → Option α
  | .object members => readMembers? fields members [] record
  | .array items => readItems? fields items record
  | _ => none

/-! ### Configurations -/

/-- The fields of the parameters of filters. -/
def FilterConfig.fields : List (RecordField FilterConfig) :=
  [⟨"rows_per_step", fun c v => v.toCount?.map fun x => { c with rowsPerStep := x }⟩,
   ⟨"parallel_rows_per_step",
     fun c v => v.toCount?.map fun x => { c with parallelRowsPerStep := x }⟩,
   ⟨"exploration_weight", fun c v => v.toFloat?.map fun x => { c with explorationWeight := x }⟩,
   ⟨"row_parallelism", fun c v => v.toBool?.map fun x => { c with rowParallelism := x }⟩,
   ⟨"row_parallel_actions",
     fun c v => v.toCount?.map fun x => { c with rowParallelActions := x }⟩,
   ⟨"row_parallel_delta", fun c v => v.toCount?.map fun x => { c with rowParallelDelta := x }⟩]

/-- The fields of the parameters of joins. -/
def Config.fields : List (RecordField Config) :=
  [⟨"budget", fun c v => v.toCount?.map fun x => { c with budget := x }⟩,
   ⟨"input_reward_weight", fun c v => v.toFloat?.map fun x => { c with inputRewardWeight := x }⟩,
   ⟨"output_reward_weight",
     fun c v => v.toFloat?.map fun x => { c with outputRewardWeight := x }⟩,
   ⟨"exploration_weight", fun c v => v.toFloat?.map fun x => { c with explorationWeight := x }⟩,
   ⟨"policy", fun c v => v.toPolicy?.map fun x => { c with policy := x }⟩,
   ⟨"epsilon", fun c v => v.toFloat?.map fun x => { c with epsilon := x }⟩,
   ⟨"forget", fun c v => v.toBool?.map fun x => { c with forget := x }⟩,
   ⟨"forget_interval", fun c v => v.toCount?.map fun x => { c with forgetInterval := x }⟩,
   ⟨"avoid_cartesians", fun c v => v.toBool?.map fun x => { c with avoidCartesians := x }⟩,
   ⟨"nr_workers", fun c v => v.toCount?.map fun x => { c with nrWorkers := x }⟩,
   ⟨"partition_search_space",
     fun c v => v.toBool?.map fun x => { c with partitionSearchSpace := x }⟩,
   ⟨"max_tree_nodes", fun c v => v.toCount?.map fun x => { c with maxTreeNodes := x }⟩,
   ⟨"seed", fun c v => v.toOptionalCount?.map fun x => { c with seed := x }⟩,
   ⟨"max_episodes", fun c v => v.toOptionalCount?.map fun x => { c with maxEpisodes := x }⟩,
   ⟨"timeout_ms", fun c v => v.toOptionalCount?.map fun x => { c with timeoutMs := x }⟩,
   ⟨"prefilter", fun c v => v.toBool?.map fun x => { c with prefilter := x }⟩,
   ⟨"filter", fun c v =>
     (readRecord? FilterConfig.fields {} v).map fun x => { c with filter := x }⟩]

/-- Reads a configuration and accepts it. -/
def Config.read (text : String) : Except ConfigError Config :=
  match (Json.read? text).bind (readRecord? Config.fields {}) with
  | none => .error .unreadable
  | some config => config.validate.map fun _ => config

end AdaptiveJoin
