import NetworkAnalysis.Command.Failure
import NetworkAnalysis.Command.Findings
import NetworkAnalysis.Command.Invocation
import NetworkAnalysis.Command.ValueFile
import NetworkAnalysis.Loading
import NetworkAnalysis.Timing

/-!
# Sessions

A session carries out one invocation: it reads the settings file, loads the graph, runs the analysis,
writes the values of the nodes and makes the page to show. All that it needs from outside is a `World`, in
which files are read and written and time passes; the steps themselves are the same in every world.
-/

namespace NetworkAnalysis.Command

/-- A step of a session, which may fail and whose durations are collected. -/
abbrev Session (m : Type → Type) := ExceptT Failure (StateT Timing.Stopwatch m)

namespace Session

variable {m : Type → Type} [Monad m] {β : Type}

/-- A step of the world. -/
def outside (step : m β) : Session m β :=
  fun stopwatch => do
    let value ← step
    pure (.ok value, stopwatch)

/-- A value, or a failure with a cause. -/
def orFail (x : Except Cause β) : Session m β :=
  match x with
  | .ok value => pure value
  | .error cause => throw { cause }

/-- A value, or a failure with an error of the library. -/
def orError (x : Except Error β) : Session m β :=
  orFail (x.mapError Cause.graph)

/-- A step as part of a wider activity. -/
def within (activity : String) (step : Session m β) : Session m β :=
  tryCatch step fun failure => throw (failure.during activity)

/-- Carries out a step as a stage. Answers its milliseconds with its value; the stage is recorded also if
the step fails. -/
def measure (world : World m) (stage : String) (step : Session m β) : Session m (β × Nat) :=
  fun stopwatch => do
    let start ← world.clock
    let (value, stopwatch) ← step stopwatch
    let finish ← world.clock
    pure
      (value.map fun value => (value, (finish - start) / 1000000),
       stopwatch.record stage (finish - start))

/-- Runs under ever larger budgets of questions, until one is enough or the deadline has passed. -/
def runUntil (world : World m) (deadline : Nat) (polls : β → Nat) (run : Watch → β) :
    (doublings budget : Nat) → m β
  | 0, _ => pure (run .always)
  | doublings + 1, budget => do
    let answer ← pure (run (.budget budget))
    if polls answer ≤ budget then pure answer
    else if deadline ≤ (← world.clock) then pure answer
    else runUntil world deadline polls run doublings (2 * budget)

/-- Runs with the watch of a deadline, where there is one. A deadline that has passed stops the run at its
first question. -/
def supervised (world : World m) (deadline : Option Nat) (polls : β → Nat) (run : Watch → β) :
    Session m β :=
  outside <|
    match deadline with
    | none => pure (run .always)
    | some deadline => do
      if deadline ≤ (← world.clock) then pure (run (.budget 0))
      else runUntil world deadline polls run 64 1024

/-- The instant at which an analysis that starts now has to stop. -/
def deadline (world : World m) (timeout : Option Nat) : Session m (Option Nat) :=
  match timeout with
  | none => pure none
  | some millis => do
    let now ← outside world.clock
    pure (some (now + millis * 1000000))

/-- Reads the settings file, if there is one. -/
def settings (world : World m) (path : Option String) : Session m (EngineSettings Float) :=
  match path with
  | none => pure {}
  | some path =>
    within "Failed to load configuration" do
      let text ← within ("Failed to read " ++ path) do
        let bytes ← orFail ((← outside (world.read path)).mapError Cause.file)
        match String.fromUTF8? bytes with
        | some text => pure text
        | none => throw { cause := .notText }
      within ("Failed to parse " ++ path)
        (orFail ((SettingsFile.read text).mapError Cause.settings))

/-- The settings of a load with the options of a command line on top. A default weight asks for
weights. -/
def loadSettings (options : GraphOptions) (base : LoadSettings Float) : LoadSettings Float where
  backend := options.backend.getD base.backend
  weighted := base.weighted || options.weighted || options.defaultWeight.isSome
  defaultWeight := options.defaultWeight.or base.defaultWeight

/-- Reads an edge list. A folder can be opened and not read. -/
def edgeList (world : World m) (path : String) : Session m (EdgeList Float) := do
  match ← outside (world.read path) with
  | .error .folder =>
    within ("Failed to read edge list " ++ path) (throw { cause := .file .folder })
  | .error fault => within ("Failed to open " ++ path) (throw { cause := .file fault })
  | .ok bytes =>
    within ("Failed to read edge list " ++ path)
      (orFail ((EdgeFile.read bytes).mapError Cause.edges))

/-- Loads the graph. Answers the milliseconds with it. -/
def graph (world : World m) (options : GraphOptions) (base : LoadSettings Float) :
    Session m (Graph Float × Nat) := do
  let settings := loadSettings options base
  orError settings.validate
  measure world "load" do
    let edges ← edgeList world options.input
    orError (Loading.load settings edges.toSource)

/-- Writes the values of the nodes, if there is a file for them. Answers the milliseconds with what is
said about the file. -/
def writeValues (world : World m) (path : Option String) (deadline : Option Nat) (ids : IdMap)
    (properties : List Exportable) : Session m (Option ExportFacts × Nat) :=
  match path with
  | none => pure (none, 0)
  | some path =>
    measure world "write" do
      let file ← supervised world deadline ExportedFile.polls (exportAll ids properties)
      match ← outside (world.write path file.text) with
      | .error fault =>
        within ("Failed to " ++ fault.step.verb ++ " " ++ path) (throw { cause := .file fault.reason })
      | .ok () => pure ()
      pure (some { path, written := file.written, completed := file.completed })

/-- Writes the values that an analysis has found and makes its page. -/
def conclude (world : World m) (invocation : Invocation) (g : Graph Float)
    (deadline : Option Nat) (loading computing : Nat) (completed : Bool)
    (properties : List Exportable) (findings : Findings) : Session m Page := do
  let (written, writing) ← writeValues world invocation.output deadline g.ids properties
  pure (findings.page (.ofGraph g) { completed, loading, computing, writing, written })

/-- Runs an analysis under a deadline, as a stage. -/
def analyse (world : World m) (deadline : Option Nat) (run : Watch → Report Float β) :
    Session m (Report Float β) :=
  supervised world deadline (fun report => report.polls) run

/-- The number of a label. -/
def nodeOf (g : Graph Float) (label : Nat) : Session m (Fin g.size) :=
  match g.ids.node? label with
  | some node => pure node
  | none => throw { cause := .graph (.unknownLabel label) }

/-- Finds shortest paths. -/
def shortestPath (world : World m) (invocation : Invocation) (g : Graph Float) (loading : Nat)
    (source : Nat) (target : Option Nat) (direction : Direction) : Session m Page := do
  let source ← nodeOf g source
  let target ← target.mapM (nodeOf g)
  let deadline ← deadline world invocation.timeout
  let (report, computing) ← measure world "compute" do
    let query ← orError
      (ShortestPath.Query.check g source (target.map Fin.val) direction)
    analyse world deadline (ShortestPath.compute g query)
  conclude world invocation g deadline loading computing report.completed
    (pathProperties g report.value) (pathFindings g report.value)

/-- Scores the nodes. -/
def betweenness (world : World m) (invocation : Invocation) (g : Graph Float) (loading : Nat)
    (direction : Direction) (top : Nat) : Session m Page := do
  let deadline ← deadline world invocation.timeout
  let (report, computing) ← measure world "compute"
    (analyse world deadline (Centrality.betweenness g direction))
  conclude world invocation g deadline loading computing report.completed
    (scoreProperties report.value) (scoreFindings g direction top report.value)

/-- Finds components. -/
def components (world : World m) (invocation : Invocation) (g : Graph Float) (loading : Nat) :
    Session m Page := do
  let deadline ← deadline world invocation.timeout
  let (report, computing) ← measure world "compute"
    (analyse world deadline (Component.compute g))
  conclude world invocation g deadline loading computing report.completed
    (componentProperties report.value) (componentFindings report.value)

/-- The settings of a search for communities in a graph, with the options of a command line on top. A
graph with weights is searched by them. -/
def communitySettings (g : Graph Float) (base : CommunitySettings)
    (maxIterations maxLevels concurrency : Option Nat) : CommunitySettings where
  weighted := base.weighted || g.weighted
  maxIterations := maxIterations.getD base.maxIterations
  maxLevels := maxLevels.getD base.maxLevels
  concurrency := concurrency.or base.concurrency

/-- Finds communities. A search by weights has one worker. -/
def communities (world : World m) (invocation : Invocation) (g : Graph Float) (loading : Nat)
    (settings : CommunitySettings) : Session m Page := do
  orError settings.validate
  let offered ← outside world.processors
  let workers := if settings.weighted then 1 else settings.concurrency.getD offered
  let deadline ← deadline world invocation.timeout
  let (report, computing) ← measure world "compute" do
    orError (Community.checkSettings g settings)
    analyse world deadline
      (Community.detect g settings (if 1 < workers then some workers else none))
  conclude world invocation g deadline loading computing report.completed
    (communityProperties report.value) (communityFindings settings.weighted workers report.value)

/-- The stage of a whole command. -/
def stageOf : Task → String
  | .stats => "cmd.stats"
  | .shortestPath .. => "cmd.shortest_path"
  | .betweenness .. => "cmd.betweenness"
  | .components => "cmd.scc"
  | .communities .. => "cmd.louvain"

/-- Carries out the task of an invocation. -/
def task (world : World m) (invocation : Invocation) (settings : EngineSettings Float) :
    Session m Page := do
  let (g, loading) ← graph world invocation.graph settings.load
  match invocation.task with
  | .stats => pure (statisticsPage (.ofGraph g) g.statistics loading)
  | .shortestPath source target direction =>
    shortestPath world invocation g loading source target direction
  | .betweenness direction top => betweenness world invocation g loading direction top
  | .components => components world invocation g loading
  | .communities maxIterations maxLevels concurrency =>
    communities world invocation g loading
      (communitySettings g settings.communities maxIterations maxLevels concurrency)

/-- Carries out an invocation. -/
def page (world : World m) (invocation : Invocation) : Session m Page := do
  let settings ← settings world invocation.settingsFile
  let (page, _) ← measure world (stageOf invocation.task) (task world invocation settings)
  pure page

end Session

/-! ## Whole runs -/

/-- The variables that a run looks at. -/
structure Environment where
  /-- The name of a mode of output. -/
  format : Option String := none
  /-- Whether durations are reported. -/
  timing : Option String := none

/-- How a run ended. -/
structure Ended where
  /-- Whether the run failed. -/
  failed : Bool
  /-- What goes to the output. -/
  output : String
  /-- What is said about a failure, and before it about durations that were asked for in vain. -/
  errors : String
  /-- The durations of the stages; there are none unless they are asked for. -/
  stages : Timing.Summary

/-- What is said about the stages when the report of their durations is asked for and there is none. -/
def noSamplesText : String := "timing report: no samples recorded\n"

/-- Carries out an invocation in a world. If durations are asked for and no stage was begun, that is said in
front of the failure. -/
def Invocation.run {m : Type → Type} [Monad m] (invocation : Invocation) (world : World m)
    (environment : Environment) : m Ended := do
  let mode := OutputMode.choose invocation.format invocation.json environment.format
  let timed := invocation.timing || (environment.timing.map Timing.isTruthy).getD false
  let (result, stopwatch) ← Session.page world invocation { running := timed }
  let stages := stopwatch.summary
  let remark := if timed && stages.isEmpty then noSamplesText else ""
  match result with
  | .ok page => pure { failed := false, output := page.inMode mode, errors := remark, stages }
  | .error failure =>
    pure { failed := true, output := "", errors := remark ++ failure.inMode mode, stages }

/-- The report of the durations of the stages, which is empty if there are none. -/
def timingReport (stages : Timing.Summary) : String :=
  if stages.isEmpty then ""
  else
    "timing report:\n" ++ Timing.Summary.table stages ++ "\ntiming report (json):\n"
      ++ (Timing.Summary.toJson stages).pretty ++ "\n"

end NetworkAnalysis.Command
