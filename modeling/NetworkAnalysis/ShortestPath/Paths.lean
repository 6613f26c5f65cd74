import NetworkAnalysis.ShortestPath.Search

/-!
# Shortest paths as a result

What a search leaves: the distance and the predecessor of every node it has reached, and which of them
are settled. Paths are read backwards along the predecessors.
-/

namespace NetworkAnalysis.ShortestPath

variable {n : Nat} {α : Type} [Scalar α]

/-- What a search is asked for. -/
structure Query (n : Nat) where
  /-- The node where all paths begin. -/
  source : Fin n
  /-- The node at which the search may end; `none` asks for all nodes. -/
  target : Option (Fin n)
  /-- Which relationships the paths follow. -/
  direction : Direction
deriving DecidableEq, Repr

/-- The name of the algorithm in messages. -/
def algorithm : String := "ShortestPathDijkstra"

/-- The query for nodes given by number. The graph needs weights, and both nodes have to exist. -/
def Query.check (g : Graph α) (source : Nat) (target : Option Nat) (direction : Direction) :
    Except Error (Query g.size) := do
  if !g.weighted then throw (.missingWeights algorithm)
  let source ← g.checkNode source
  let target ← target.mapM g.checkNode
  pure { source, target, direction }

/-- Distances and predecessors from one source. -/
structure ShortestPaths (n : Nat) (α : Type) where
  /-- The node where all paths begin. -/
  source : Fin n
  /-- The node that was asked for. -/
  target : Option (Fin n)
  /-- The cost of the cheapest path found to each node. -/
  costs : Table n α
  /-- The last node before each node on that path. -/
  predecessors : Table n (Option (Fin n))
  /-- The nodes whose cost is final. -/
  settled : Table n Bool
  /-- The settled nodes, in the order in which they were settled. -/
  order : Array (Fin n)

/-- A path, from its first node to its last. -/
structure Path (n : Nat) (α : Type) where
  /-- The nodes of the path; no nodes stand for no path. -/
  nodes : List (Fin n)
  /-- The cost of the path. -/
  totalCost : α

/-- The path that is not there. -/
def Path.none : Path n α := ⟨[], Scalar.unreachable⟩

namespace ShortestPaths

/-- The distance of a node: final, preliminary, or `Scalar.unreachable`. -/
def distance (p : ShortestPaths n α) (node : Nat) : α :=
  (p.costs.get? node).getD Scalar.unreachable

/-- Whether the distance of a node is final. -/
def isSettled (p : ShortestPaths n α) (node : Nat) : Bool :=
  (p.settled.get? node).getD false

/-- The predecessor of a node. -/
def predecessor (p : ShortestPaths n α) (node : Nat) : Option (Fin n) :=
  (p.predecessors.get? node).getD none

/-- The nodes before a node along the predecessors, and the node itself, in front of `after`. At most
`bound` steps are taken. -/
def chain (predecessors : Table n (Option (Fin n))) :
    (bound : Nat) → Fin n → (after : List (Fin n)) → List (Fin n)
  | 0, node, after => node :: after
  | bound + 1, node, after =>
    match predecessors[node] with
    | none => node :: after
    | some previous => chain predecessors bound previous (node :: after)

/-- The path from the source to a settled node. There are no more than `n` nodes to go back to. -/
def pathToNode (p : ShortestPaths n α) (node : Fin n) : Path n α :=
  if p.settled[node] then ⟨chain p.predecessors n node [], p.costs[node]⟩ else .none

/-- The path from the source to the node of a number. -/
def pathTo (p : ShortestPaths n α) (node : Nat) : Path n α :=
  if h : node < n then
    p.pathToNode ⟨node, h⟩
  else
    .none

/-- The cost of reaching the target, as far as it is known. -/
def totalCost (p : ShortestPaths n α) : α :=
  match p.target with
  | none => Scalar.unreachable
  | some target => p.costs[target]

/-- The path to the target. -/
def path (p : ShortestPaths n α) : Path n α :=
  match p.target with
  | none => .none
  | some target => p.pathToNode target

/-- The nodes of a path with their distances. -/
def withDistances (p : ShortestPaths n α) (path : Path n α) : List (Fin n × α) :=
  path.nodes.map fun node => (node, p.costs[node])

/-- The distances that are final; all others count as unreachable. -/
def finalCosts (p : ShortestPaths n α) : Table n α :=
  .ofFn fun node => if p.settled[node] then p.costs[node] else Scalar.unreachable

/-- The predecessors of the nodes whose distances are final. -/
def finalPredecessors (p : ShortestPaths n α) : Table n (Option (Fin n)) :=
  .ofFn fun node => if p.settled[node] then p.predecessors[node] else none

end ShortestPaths

/-- Searches along the steps of a network. -/
def search (steps : Network n α) (source : Fin n) (target : Option (Fin n)) (watch : Watch) :
    Report α (ShortestPaths n α) :=
  let (s, completed) := (Search.start source).run steps target watch
  { value :=
      { source, target
        costs := s.tree.costs
        predecessors := s.tree.predecessors
        settled := s.settled
        order := s.order }
    completed
    polls := s.polls
    progress := s.progress.toList ++ if completed then [Scalar.one] else [] }

/-- Searches a graph. -/
def compute (g : Graph α) (query : Query g.size) (watch : Watch) :
    Report α (ShortestPaths g.size α) :=
  search (g.steps query.direction) query.source query.target watch

end NetworkAnalysis.ShortestPath
