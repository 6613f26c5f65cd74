import NetworkAnalysis.Centrality.Betweenness
import NetworkAnalysis.Community.Detection
import NetworkAnalysis.Component.Partition
import NetworkAnalysis.Export
import NetworkAnalysis.Json
import NetworkAnalysis.ShortestPath.Paths

/-!
# Files with values of the nodes

A command can write what it has found about each node to a file. The file has one JSON document on a line
for each value, with the label of the node and the name of the property.
-/

namespace NetworkAnalysis.Command

/-- A value of a property in a document. -/
def valueJson : PropertyValue Float → Json
  | .int value => .int value
  | .double value => .double value
  | .node label => .nat label

/-- A value of a node as a line, with the names in alphabetical order. -/
def propertyLine (p : Property Float) : String :=
  let node := ("node", Json.nat p.label)
  let value := (p.name, valueJson p.value)
  (Json.object (if p.name < "node" then [value, node] else [node, value])).compact ++ "\n"

/-- The writer that collects lines, the last one in front. -/
def lineWriter : Writer (List String) Empty Float := fun lines p => .ok (propertyLine p :: lines)

/-- A property that can be exported. -/
structure Exportable where
  /-- The name of the property. -/
  name : String
  /-- The values of the nodes. -/
  values : Translator Float

/-- The lines of a file with values of the nodes, and what is said about it. -/
structure ExportedFile where
  /-- The lines, the last one in front. -/
  lines : List String
  /-- The number of values. -/
  written : Nat
  /-- Whether all values are there. -/
  completed : Bool
  /-- How often the watch was asked. -/
  polls : Nat

/-- The text of a file. -/
def ExportedFile.text (file : ExportedFile) : String :=
  String.join file.lines.reverse

/-- Exports one more property to a file. -/
def ExportedFile.add (ids : IdMap) (watch : Watch) (file : ExportedFile) (property : Exportable) :
    ExportedFile :=
  let exported :=
    Export.write ids property.name property.values lineWriter (watch.after file.polls) file.lines
  { lines := exported.writer
    written := file.written + exported.written
    completed := file.completed && (match exported.ending with | .finished => true | _ => false)
    polls := file.polls + exported.polls }

/-- Exports properties one after the other. -/
def exportAll (ids : IdMap) (properties : List Exportable) (watch : Watch) : ExportedFile :=
  properties.foldl (ExportedFile.add ids watch) { lines := [], written := 0, completed := true, polls := 0 }

/-- What is written about shortest paths: the final distances, then the final predecessors. -/
def pathProperties (g : Graph Float) (p : ShortestPath.ShortestPaths g.size Float) :
    List Exportable :=
  [{ name := "distance", values := .ofCosts p.finalCosts.toArray },
   { name := "predecessor"
     values := .ofReferences g.ids (p.finalPredecessors.toArray.map fun v => v.map Fin.val) }]

/-- What is written about scores. -/
def scoreProperties {n : Nat} (s : Centrality.Scores n Float) : List Exportable :=
  [{ name := "centrality", values := .ofCosts s.values.toArray }]

/-- What is written about components. -/
def componentProperties {n : Nat} (p : Component.Partition n) : List Exportable :=
  [{ name := "partition", values := .ofNats? p.components.toArray }]

/-- What is written about communities. -/
def communityProperties {n : Nat} (c : Community.Communities n Float) : List Exportable :=
  [{ name := "community", values := .ofNats c.assignment.toArray }]

end NetworkAnalysis.Command
