/-!
# What can go wrong

An `Error` is a cause, with the values that a reader needs to find it. Its class (`Error.code`) is what
callers branch on; its wording is written down once, in `Error.message`, and every message begins with
the code.
-/

namespace NetworkAnalysis

/-- The classes of errors. -/
inductive ErrorCode where
  /-- A configuration value is unusable. -/
  | invalidConfiguration
  /-- Weights were asked for and none were loaded. -/
  | weightsMissing
  /-- There are more nodes or relationships than the storage can number. -/
  | capacityExceeded
  /-- A label was listed twice. -/
  | duplicateNode
  /-- A node is not part of the graph. -/
  | unknownNode
  /-- A computation was started a second time. -/
  | alreadyComputed
  /-- A computation was started after its working state was given up. -/
  | released
  /-- The workers could not be started. -/
  | workersUnavailable
deriving DecidableEq, Repr

namespace ErrorCode

/-- The stable identifier of a class. -/
def identifier : ErrorCode → String
  | invalidConfiguration => "E1001"
  | weightsMissing => "E1002"
  | capacityExceeded => "E2001"
  | duplicateNode => "E2002"
  | unknownNode => "E2003"
  | alreadyComputed => "E3001"
  | released => "E3002"
  | workersUnavailable => "E5001"

/-- A short name of a class for people. -/
def summary : ErrorCode → String
  | invalidConfiguration => "Invalid configuration"
  | weightsMissing => "Relationship weights not loaded"
  | capacityExceeded => "Storage backend capacity exceeded"
  | duplicateNode => "Duplicate original node id"
  | unknownNode => "Node not found"
  | alreadyComputed => "Algorithm already computed"
  | released => "Algorithm working state released"
  | workersUnavailable => "Worker pool construction failed"

/-- What to try about errors of a class, where there is something to try. -/
def hint : ErrorCode → Option String
  | invalidConfiguration => some "Check the load and algorithm configuration values."
  | weightsMissing =>
    some "Load the graph with `weights = \"property\"` or configure a `default_weight`."
  | capacityExceeded => some "Load with `backend = \"huge\"` (or `auto`)."
  | duplicateNode => some "Each original id may appear only once in the node table."
  | unknownNode => none
  | alreadyComputed => some "Algorithm instances are single-use; build a new one per computation."
  | released => some "Algorithm instances are single-use; build a new one per computation."
  | workersUnavailable => some "Lower `concurrency` or check thread limits."

end ErrorCode

/-- The settings that have to be at least one. -/
inductive Setting where
  /-- The number of passes of a community level. -/
  | maxIterations
  /-- The number of community levels. -/
  | maxLevels
  /-- The number of workers. -/
  | concurrency
deriving DecidableEq, Repr

/-- The name of a setting in configuration files and messages. -/
def Setting.name : Setting → String
  | maxIterations => "max_iterations"
  | maxLevels => "max_levels"
  | concurrency => "concurrency"

/-- What is wrong with a configuration, or with values that have to fit the graph. -/
inductive Misconfiguration where
  /-- The name of a storage backend is unknown. -/
  | unknownBackend (name : String)
  /-- The default weight, here as it is written, is negative or not finite. -/
  | defaultWeight (text : String)
  /-- A setting is zero. -/
  | zeroSetting (setting : Setting)
  /-- A relationship between the two labels has neither a weight of its own nor a default. -/
  | unweightedRelationship (source target : Nat)
  /-- A community assignment is longer or shorter than the list of nodes. -/
  | assignmentLength (given nodes : Nat)
  /-- A community of an assignment is not below the number of nodes. -/
  | communityRange (node community nodes : Nat)
  /-- Any other reason, in its own words. -/
  | other (reason : String)
deriving DecidableEq, Repr

/-- The wording of a misconfiguration. -/
def Misconfiguration.message : Misconfiguration → String
  | unknownBackend name => s!"unknown backend '{name}' (expected dense, huge, or auto)"
  | defaultWeight text => s!"default_weight must be a finite non-negative number, got {text}"
  | zeroSetting setting => setting.name ++ " must be at least 1"
  | unweightedRelationship source target =>
    s!"relationship {source} -> {target} has no weight and no default_weight is configured"
  | assignmentLength given nodes => s!"assignment covers {given} nodes, graph has {nodes}"
  | communityRange node community nodes =>
    s!"node {node} has community {community}, ids must be below {nodes}"
  | other reason => reason

/-- The errors of loading a graph and of running an algorithm. -/
inductive Error where
  /-- A configuration value is unusable. -/
  | misconfigured (problem : Misconfiguration)
  /-- The named algorithm needs weights and the graph has none. -/
  | missingWeights (algorithm : String)
  /-- The count of `what` is beyond what the backend can number. -/
  | capacity (backend what : String) (requested limit : Nat)
  /-- The source lists a label a second time. -/
  | duplicateNode (label : Nat)
  /-- No node has this label. -/
  | unknownLabel (label : Nat)
  /-- A node number is not below the number of nodes. -/
  | unknownNode (node nodes : Nat)
  /-- The named algorithm was started a second time on one instance. -/
  | alreadyComputed (algorithm : String)
  /-- The named algorithm was started on an instance that was given up. -/
  | released (algorithm : String)
deriving DecidableEq, Repr

namespace Error

/-- The class of an error. -/
def code : Error → ErrorCode
  | misconfigured _ => .invalidConfiguration
  | missingWeights _ => .weightsMissing
  | capacity .. => .capacityExceeded
  | duplicateNode _ => .duplicateNode
  | unknownLabel _ => .unknownNode
  | unknownNode .. => .unknownNode
  | alreadyComputed _ => .alreadyComputed
  | released _ => .released

/-- The wording of an error after its code. -/
def reason : Error → String
  | misconfigured problem => problem.message
  | missingWeights algorithm => s!"{algorithm} requires relationship weights"
  | capacity backend what requested limit =>
    s!"{what} count {requested} exceeds {backend} capacity {limit}"
  | duplicateNode label => s!"original id {label} appears more than once"
  | unknownLabel label => s!"original id {label} is not part of the graph"
  | unknownNode node nodes => s!"mapped id {node} out of range for {nodes} nodes"
  | alreadyComputed algorithm => s!"{algorithm} instances are single-use"
  | released algorithm => s!"{algorithm} working arrays were released"

/-- The text of an error: its code and its wording. -/
def message (e : Error) : String :=
  e.code.identifier ++ ": " ++ e.reason

/-- What to try about an error. -/
def hint (e : Error) : Option String :=
  e.code.hint

end Error

end NetworkAnalysis
