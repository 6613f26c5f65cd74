import NetworkAnalysis.Centrality.Betweenness
import NetworkAnalysis.Command.Layout
import NetworkAnalysis.Community.Detection
import NetworkAnalysis.Component.Partition
import NetworkAnalysis.ShortestPath.Paths
import NetworkAnalysis.Statistics

/-!
# Findings

What a command has found, as pages. Every page begins with the facts about the graph; the page of an
analysis ends with the remarks about its run. In between stands what belongs to one analysis.
-/

namespace NetworkAnalysis.Command

open Layout

/-- What every page says about the graph. -/
structure GraphFacts where
  /-- The name of the storage. -/
  backend : String
  /-- The number of nodes. -/
  nodes : Nat
  /-- The number of relationships. -/
  relationships : Nat
  /-- Whether weights were loaded. -/
  weighted : Bool
deriving Repr

namespace GraphFacts

/-- The facts about a graph. -/
def ofGraph (g : Graph Float) : GraphFacts where
  backend := g.storage.name
  nodes := g.size
  relationships := g.relationshipCount
  weighted := g.weighted

/-- The facts for people. -/
def pretty (f : GraphFacts) : String :=
  column "backend" f.backend ++ column "nodes" (toString f.nodes)
    ++ column "relationships" (toString f.relationships) ++ column "weighted" (truth f.weighted)

/-- The facts for scripts. -/
def text (f : GraphFacts) : String :=
  setting "backend" f.backend ++ setting "nodes" (toString f.nodes)
    ++ setting "relationships" (toString f.relationships) ++ setting "weighted" (truth f.weighted)

/-- The facts as members of a document. -/
def members (f : GraphFacts) : List (String × Json) :=
  [("backend", .text f.backend), ("nodes", .nat f.nodes), ("relationships", .nat f.relationships),
   ("weighted", .bool f.weighted)]

end GraphFacts

/-- What is said about the values of the nodes in a file. -/
structure ExportFacts where
  /-- The file. -/
  path : String
  /-- The number of values. -/
  written : Nat
  /-- Whether all values are there. -/
  completed : Bool
deriving Repr

/-- What the page of an analysis says about its run. -/
structure RunFacts where
  /-- Whether the analysis finished. -/
  completed : Bool
  /-- The milliseconds of loading. -/
  loading : Nat
  /-- The milliseconds of the analysis. -/
  computing : Nat
  /-- The milliseconds of writing the values of the nodes. -/
  writing : Nat
  /-- The file with the values of the nodes, if there is one. -/
  written : Option ExportFacts
deriving Repr

namespace RunFacts

/-- The remarks for people. -/
def pretty (f : RunFacts) : String :=
  (if f.completed then "" else column "completed" "false (terminated early; partial result)")
    ++ column "millis"
      ("load " ++ toString f.loading ++ " / compute " ++ toString f.computing ++ " / write "
        ++ toString f.writing)
    ++ (match f.written with
      | none => ""
      | some file => column "written" (toString file.written ++ " values to " ++ file.path))

/-- The remarks for scripts. -/
def text (f : RunFacts) : String :=
  setting "completed" (truth f.completed) ++ setting "load_millis" (toString f.loading)
    ++ setting "compute_millis" (toString f.computing)
    ++ setting "write_millis" (toString f.writing)
    ++ (match f.written with
      | none => ""
      | some file => setting "written" (toString file.written))

/-- The remarks as members of a document. -/
def members (f : RunFacts) : List (String × Json) :=
  [("completed", .bool f.completed),
   ("millis", .object
     [("load", .nat f.loading), ("compute", .nat f.computing), ("write", .nat f.writing)])]
    ++ (match f.written with
      | none => []
      | some file =>
        [("export", .object
          [("path", .text file.path), ("written", .nat file.written),
           ("completed", .bool file.completed)])])

end RunFacts

/-- What an analysis has to say between the facts about the graph and the remarks about its run. -/
structure Findings where
  /-- The heading for people. -/
  title : String
  /-- The form for people. -/
  pretty : String
  /-- The form for scripts. -/
  text : String
  /-- The members of a document. -/
  members : List (String × Json)

/-- The page of an analysis. -/
def Findings.page (f : Findings) (graph : GraphFacts) (run : RunFacts) : Page where
  pretty := heading f.title ++ graph.pretty ++ f.pretty ++ run.pretty
  text := graph.text ++ f.text ++ run.text
  json := .object (graph.members ++ f.members ++ run.members)

/-! ## Statistics -/

/-- Degrees in a line for people. -/
def degreeColumn (key : String) (s : DegreeStatistics Float) : String :=
  column key
    ("min " ++ toString s.min ++ " / max " ++ toString s.max ++ " / mean " ++ Decimal.fixed 2 s.mean)

/-- Degrees in a document. -/
def degreeMember (s : DegreeStatistics Float) : Json :=
  .object [("min", .nat s.min), ("max", .nat s.max), ("mean", .double s.mean)]

/-- The page about the shape of a graph, which took `loading` milliseconds to load. -/
def statisticsPage (graph : GraphFacts) (s : Statistics Float) (loading : Nat) : Page where
  pretty :=
    heading "Graph" ++ graph.pretty ++ degreeColumn "out-degree" s.outgoing
      ++ degreeColumn "in-degree" s.incoming ++ column "isolated" (toString s.isolated)
      ++ column "self loops" (toString s.loops) ++ column "load millis" (toString loading)
  text :=
    graph.text ++ setting "out_degree_max" (toString s.outgoing.max)
      ++ setting "in_degree_max" (toString s.incoming.max)
      ++ setting "isolated" (toString s.isolated) ++ setting "self_loops" (toString s.loops)
      ++ setting "load_millis" (toString loading)
  json :=
    .object
      (graph.members ++
        [("out_degree", degreeMember s.outgoing), ("in_degree", degreeMember s.incoming),
         ("isolated", .nat s.isolated), ("self_loops", .nat s.loops), ("load_millis", .nat loading)])

/-! ## Shortest paths -/

/-- The nodes of a path in a line. -/
def pathText (labels : List Nat) : String :=
  " -> ".intercalate (labels.map toString)

/-- What is said about shortest paths. -/
structure PathFacts where
  /-- The label of the source. -/
  source : Nat
  /-- The label of the target, where there is one. -/
  target : Option Nat
  /-- The cost of the path to the target, where there is such a path. -/
  totalCost : Option Float
  /-- The labels of the nodes of that path. -/
  path : List Nat
  /-- The number of settled nodes. -/
  settled : Nat
deriving Repr

namespace PathFacts

/-- The facts about what a search has found. The cost is that of the path to the target, where there is
one, and the settled nodes that count are those whose distance is below the mark of the unreachable. -/
def ofPaths (g : Graph Float) (p : ShortestPath.ShortestPaths g.size Float) : PathFacts where
  source := g.ids.label p.source
  target := p.target.map g.ids.label
  totalCost := if p.path.nodes.isEmpty then none else some p.path.totalCost
  path := p.path.nodes.map g.ids.label
  settled := p.finalCosts.toList.countP fun distance => decide (distance < Scalar.unreachable)

/-- The facts for people. -/
def pretty (f : PathFacts) : String :=
  column "source" (toString f.source)
    ++ (match f.target, f.totalCost with
      | some _, some cost =>
        column "total cost" (Decimal.plain cost) ++ column "path" (pathText f.path)
      | some target, none => column "path" (toString target ++ " not reachable")
      | none, _ => "")
    ++ column "settled" (toString f.settled)

/-- The facts for scripts. -/
def text (f : PathFacts) : String :=
  setting "source" (toString f.source)
    ++ (match f.totalCost with
      | some cost => setting "total_cost" (Decimal.plain cost) ++ setting "path" (pathText f.path)
      | none => "")
    ++ setting "settled" (toString f.settled)

/-- The facts as members of a document. -/
def members (f : PathFacts) : List (String × Json) :=
  [("source", .nat f.source), ("target", .option .nat f.target),
   ("total_cost", .option .double f.totalCost), ("path", .list (f.path.map .nat)),
   ("settled", .nat f.settled)]

/-- The facts as findings. -/
def findings (f : PathFacts) : Findings where
  title := "Shortest path"
  pretty := f.pretty
  text := f.text
  members := f.members

end PathFacts

/-- What a search for shortest paths has found. -/
def pathFindings (g : Graph Float) (p : ShortestPath.ShortestPaths g.size Float) : Findings :=
  (PathFacts.ofPaths g p).findings

/-! ## Betweenness -/

/-- What the scores of the nodes show; the `top` best of them are listed. -/
def scoreFindings (g : Graph Float) (direction : Direction) (top : Nat)
    (s : Centrality.Scores g.size Float) : Findings :=
  let best := ((s.ranked g.ids.label).take top).map fun (node, score) => (g.ids.label node, score)
  { title := "Betweenness centrality"
    pretty :=
      column "direction" direction.name ++ column "sum" (Decimal.fixed 4 s.sum)
        ++ String.join (best.zipIdx.map fun ((node, score), rank) =>
          column ("#" ++ toString (rank + 1))
            ("node " ++ toString node ++ " (" ++ Decimal.fixed 4 score ++ ")"))
    text :=
      setting "direction" direction.name ++ setting "sum" (Decimal.plain s.sum)
        ++ String.join (best.map fun (node, score) =>
          setting "top" (toString node ++ ":" ++ Decimal.plain score))
    members :=
      [("direction", .text direction.name), ("sum", .double s.sum),
       ("top", .list (best.map fun (node, score) =>
         .object [("node", .nat node), ("centrality", .double score)]))] }

/-! ## Components -/

/-- What the components of a graph show. -/
def componentFindings {n : Nat} (p : Component.Partition n) : Findings where
  title := "Strongly connected components"
  pretty :=
    column "components" (toString p.count)
      ++ column "set sizes" ("min " ++ toString p.minSize ++ " / max " ++ toString p.maxSize)
  text :=
    setting "set_count" (toString p.count) ++ setting "min_set_size" (toString p.minSize)
      ++ setting "max_set_size" (toString p.maxSize)
  members :=
    [("set_count", .nat p.count), ("min_set_size", .nat p.minSize), ("max_set_size", .nat p.maxSize)]

/-! ## Communities -/

/-- What the communities of a graph show, which `workers` workers have found. -/
def communityFindings {n : Nat} (weighted : Bool) (workers : Nat)
    (c : Community.Communities n Float) : Findings where
  title := "Louvain communities"
  pretty :=
    column "variant" (if weighted then "weighted" else "unweighted, " ++ toString workers ++ " threads")
      ++ column "communities" (toString c.count) ++ column "modularity" (Decimal.fixed 6 c.modularity)
      ++ column "levels"
        (toString c.levels ++ " ["
          ++ ", ".intercalate (c.levelModularities.toList.map (Decimal.fixed 4)) ++ "]")
      ++ column "iterations" (toString c.iterations)
  text :=
    setting "community_count" (toString c.count) ++ setting "modularity" (Decimal.plain c.modularity)
      ++ setting "levels" (toString c.levels) ++ setting "iterations" (toString c.iterations)
  members :=
    [("weighted_run", .bool weighted), ("concurrency", .nat workers),
     ("community_count", .nat c.count), ("modularity", .double c.modularity),
     ("modularities", .list (c.levelModularities.toList.map .double)), ("levels", .nat c.levels),
     ("iterations", .nat c.iterations)]

end NetworkAnalysis.Command
