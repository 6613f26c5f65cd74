import NetworkAnalysis.Command.Arguments
import NetworkAnalysis.Command.Layout
import NetworkAnalysis.Direction
import NetworkAnalysis.Settings
import NetworkAnalysis.Text.Number

/-!
# Invocations

An invocation is what a command line asks for. Options that all commands share may stand in front of the
name of the command or behind it; an option behind the name counts where both are given. Each command has
one operand, the file with the edge list.
-/

namespace NetworkAnalysis.Command

/-- The analyses. -/
inductive Task where
  /-- Describes the graph. -/
  | stats
  /-- Finds cheapest paths between nodes given by their labels. -/
  | shortestPath (source : Nat) (target : Option Nat) (direction : Direction)
  /-- Scores the nodes and lists the best of them. -/
  | betweenness (direction : Direction) (top : Nat)
  /-- Finds strongly connected components. -/
  | components
  /-- Finds communities, with other settings than those of the settings file where they are given. -/
  | communities (maxIterations maxLevels concurrency : Option Nat)
deriving DecidableEq, Repr

/-- Which graph is loaded, and how. -/
structure GraphOptions where
  /-- The file with the edge list. -/
  input : String
  /-- The storage, where it is chosen. -/
  backend : Option Backend
  /-- Whether weights are asked for. -/
  weighted : Bool
  /-- The weight of edges without one of their own. -/
  defaultWeight : Option Float

/-- What a command line asks for. -/
structure Invocation where
  /-- Whether to say more about what is done. -/
  verbose : Bool
  /-- Whether the durations of the stages are reported. -/
  timing : Bool
  /-- The mode of output, where it is named. -/
  format : Option OutputMode
  /-- Whether JSON is asked for. -/
  json : Bool
  /-- The settings file. -/
  settingsFile : Option String
  /-- The milliseconds after which the analysis stops. -/
  timeout : Option Nat
  /-- The graph. -/
  graph : GraphOptions
  /-- The analysis. -/
  task : Task
  /-- The file for the values of the nodes. -/
  output : Option String

/-- The options as they are met on a command line. -/
structure Options where
  /-- Whether to say more about what is done. -/
  verbose : Bool := false
  /-- Whether the durations of the stages are reported. -/
  timing : Bool := false
  /-- The mode of output. -/
  format : Option OutputMode := none
  /-- Whether JSON is asked for. -/
  json : Bool := false
  /-- The settings file. -/
  settingsFile : Option String := none
  /-- The milliseconds after which the analysis stops. -/
  timeout : Option Nat := none
  /-- The operand. -/
  input : Option String := none
  /-- The storage. -/
  backend : Option Backend := none
  /-- Whether weights are asked for. -/
  weighted : Bool := false
  /-- The weight of edges without one of their own. -/
  defaultWeight : Option Float := none
  /-- The label of the node where paths begin. -/
  source : Option Nat := none
  /-- The label of the node where paths end. -/
  target : Option Nat := none
  /-- The direction of relationships. -/
  direction : Direction := .outgoing
  /-- The number of nodes to list. -/
  top : Nat := 5
  /-- The largest number of passes at a level. -/
  maxIterations : Option Nat := none
  /-- The largest number of levels. -/
  maxLevels : Option Nat := none
  /-- The number of workers. -/
  concurrency : Option Nat := none
  /-- The file for the values of the nodes. -/
  output : Option String := none

namespace Options

/-- A path, which has at least one character. -/
def readPath (text : String) : Option String :=
  if text.isEmpty then none else some text

/-- A natural number. -/
def readCount (text : String) : Option Nat :=
  (Text.readNat text.toList).toOption

/-- An option with a value. -/
def valued {β : Type} (name : String) (read : String → Option β) (set : β → Options → Options) :
    Switch Options :=
  { name, effect := .value fun text options => (read text).map fun value => set value options }

/-- The request for help. -/
def helpSwitch : Switch Options :=
  { name := "help", letter := some 'h', effect := .stop .help }

/-- The request for the version. -/
def versionSwitch : Switch Options :=
  { name := "version", letter := some 'V', effect := .stop .version }

/-- The options of all commands. -/
def sharedSwitches : List (Switch Options) :=
  [{ name := "verbose", letter := some 'v', effect := .flag fun o => { o with verbose := true } },
   { name := "timing", effect := .flag fun o => { o with timing := true } },
   valued "format" OutputMode.ofName? fun mode o => { o with format := some mode },
   { name := "json", effect := .flag fun o => { o with json := true } },
   valued "config" readPath fun path o => { o with settingsFile := some path },
   valued "timeout-ms" readCount fun millis o => { o with timeout := some millis },
   helpSwitch]

/-- The options about the graph. -/
def graphSwitches : List (Switch Options) :=
  [valued "backend" (fun name => (Backend.ofName name).toOption) fun backend o =>
     { o with backend := some backend },
   { name := "weighted", effect := .flag fun o => { o with weighted := true } },
   valued "default-weight" (fun text => Text.readDouble text.toList) fun weight o =>
     { o with defaultWeight := some weight }]

/-- The option for the direction. -/
def directionSwitch : Switch Options :=
  valued "direction" Direction.ofName? fun direction o => { o with direction }

/-- The option for the file of values. -/
def outputSwitch : Switch Options :=
  valued "write" readPath fun path o => { o with output := some path }

/-- Takes the operand. -/
def takeInput (text : String) (o : Options) : Option Options :=
  match o.input with
  | none => (readPath text).map fun path => { o with input := some path }
  | some _ => none

end Options

/-- A command: its name, its own options, and the task that the options make. -/
structure CommandRule where
  /-- The name of the command. -/
  name : String
  /-- The options that not all commands have. -/
  switches : List (Switch Options)
  /-- The task, if no option is missing. -/
  task : Options → Option Task

namespace CommandRule

open Options

/-- The commands. -/
def all : List CommandRule :=
  [{ name := "stats"
     switches := []
     task := fun _ => some .stats },
   { name := "shortest-path"
     switches :=
       [valued "source" readCount fun id o => { o with source := some id },
        valued "target" readCount fun id o => { o with target := some id },
        directionSwitch, outputSwitch]
     task := fun o => o.source.map fun source => .shortestPath source o.target o.direction },
   { name := "betweenness"
     switches :=
       [directionSwitch,
        valued "top" readCount fun top o => { o with top },
        outputSwitch]
     task := fun o => some (.betweenness o.direction o.top) },
   { name := "scc"
     switches := [outputSwitch]
     task := fun _ => some .components },
   { name := "louvain"
     switches :=
       [valued "max-iterations" readCount fun count o => { o with maxIterations := some count },
        valued "max-levels" readCount fun count o => { o with maxLevels := some count },
        valued "concurrency" readCount fun count o => { o with concurrency := some count },
        outputSwitch]
     task := fun o => some (.communities o.maxIterations o.maxLevels o.concurrency) }]

/-- The words behind the name of a command. -/
def grammar (rule : CommandRule) : Grammar Options where
  switches := sharedSwitches ++ graphSwitches ++ rule.switches
  operand := some takeInput

/-- The words in front of the name of a command. -/
def leadingGrammar : Grammar Options where
  switches := versionSwitch :: sharedSwitches

end CommandRule

namespace Invocation

/-- The invocation that options make, if none is missing. -/
def ofOptions? (rule : CommandRule) (o : Options) : Option Invocation := do
  let input ← o.input
  let task ← rule.task o
  pure
    { verbose := o.verbose
      timing := o.timing
      format := o.format
      json := o.json
      settingsFile := o.settingsFile
      timeout := o.timeout
      graph :=
        { input
          backend := o.backend
          weighted := o.weighted
          defaultWeight := o.defaultWeight }
      task
      output := o.output }

/-- How the words behind the command for help end the reading: at most one command can be explained. -/
def helpOn (topic : List String) : Stop :=
  match topic with
  | [] => .help
  | ["help"] => .help
  | [name] => if CommandRule.all.any fun rule => rule.name == name then .help else .misuse
  | _ => .misuse

/-- Reads a command line. -/
def ofArguments (words : List String) : Except Stop Invocation := do
  let (leading, words) ← CommandRule.leadingGrammar.read words { options := {} }
  match words with
  | [] => throw .misuse
  | "help" :: topic => throw (helpOn topic)
  | name :: words =>
    match CommandRule.all.find? fun rule => rule.name == name with
    | none => throw .misuse
    | some rule =>
      let (line, _) ← rule.grammar.read words { options := leading.options }
      match ofOptions? rule line.options with
      | some invocation => pure invocation
      | none => throw .misuse

end Invocation

end NetworkAnalysis.Command
