import NetworkAnalysis.IdMap

/-!
# Sources of graphs

A `Source` is where a load takes its nodes and relationships from: it declares how many nodes there will
be, lists their labels, and answers for a label which relationships leave it. An `EdgeList` is a source
built step by step from nodes and edges; it lists every label once, in the order in which the labels were
declared.
-/

namespace NetworkAnalysis

/-- A supplier of nodes and relationships. -/
structure Source (α : Type) where
  /-- The declared number of nodes. -/
  declared : Nat
  /-- The labels of the nodes, in the order of their numbers. -/
  nodes : List Nat
  /-- The targets of the relationships that leave a label, each with its own weight if it has
  one. -/
  relationships : Nat → List (Nat × Option α)

/-- Nodes and edges in the order in which they were declared. -/
structure EdgeList (α : Type) where
  /-- The declared labels. -/
  ids : IdMap
  /-- The edges that leave each declared label. -/
  edges : Array (Array (Nat × Option α))
  /-- Every declared label has its edges. -/
  size_edges : edges.size = ids.size

namespace EdgeList

variable {α : Type}

/-- The list without nodes. -/
def empty : EdgeList α where
  ids := .empty
  edges := #[]
  size_edges := rfl

/-- Declares a node. A repeated declaration changes nothing. -/
def addNode (l : EdgeList α) (label : Nat) : EdgeList α :=
  if h : l.ids.number? label = none then
    { ids := l.ids.push label h
      edges := l.edges.push #[]
      size_edges := by simp [l.size_edges] }
  else
    l

/-- Adds an edge to the edges of a declared label. -/
def attach (l : EdgeList α) (source target : Nat) (weight : Option α) : EdgeList α :=
  match l.ids.number? source with
  | none => l
  | some slot =>
    { l with
      edges := l.edges.modify slot fun edges => edges.push (target, weight)
      size_edges := by simp [l.size_edges] }

/-- Adds an edge and declares both ends, the source first. -/
def addEdge (l : EdgeList α) (source target : Nat) (weight : Option α) : EdgeList α :=
  ((l.addNode source).addNode target).attach source target weight

/-- Adds an edge and declares its source only. A load drops the edge unless the target is declared by
other means. -/
def addDangling (l : EdgeList α) (source target : Nat) : EdgeList α :=
  (l.addNode source).attach source target none

/-- The number of declared nodes. -/
def nodeCount (l : EdgeList α) : Nat :=
  l.ids.size

/-- The number of edges. -/
def edgeCount (l : EdgeList α) : Nat :=
  l.edges.foldl (fun count row => count + row.size) 0

/-- The edges that leave a label. -/
def edgesFrom (l : EdgeList α) (label : Nat) : List (Nat × Option α) :=
  match l.ids.number? label with
  | none => []
  | some slot => (l.edges.getD slot #[]).toList

/-- The edge list as a source: it declares the nodes that it has. -/
def toSource (l : EdgeList α) : Source α where
  declared := l.nodeCount
  nodes := l.ids.labels.toList
  relationships := l.edgesFrom

end EdgeList

end NetworkAnalysis
