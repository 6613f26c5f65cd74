import NetworkAnalysis.Graph

/-!
# What algorithms see of a graph

A search knows a graph only by the steps that it can take from each node: to which node a step leads and
what it costs. `Network n α` is that view, a list of steps for each of `n` nodes, in the order in which
the graph lists its relationships. Several relationships between the same nodes are several steps.
-/

namespace NetworkAnalysis

/-- The steps from each of `n` nodes, with their weights. -/
abbrev Network (n : Nat) (α : Type) := Fin n → List (Fin n × α)

/-- The nodes that one step leads to, with repetitions. -/
def Network.neighbours {n : Nat} {α : Type} (steps : Network n α) (node : Fin n) : List (Fin n) :=
  (steps node).map Prod.fst

namespace Graph

variable {α : Type} [Scalar α]

/-- The steps along the relationships of a graph in a direction, with their weights. -/
def steps (g : Graph α) (direction : Direction) : Network g.size α := fun node =>
  (g.relationships node direction).map fun relationship =>
    (relationship.other, g.weight relationship.id)

/-- The nodes at the other ends of the relationships of a node. -/
def neighbours (g : Graph α) (direction : Direction) (node : Fin g.size) : List (Fin g.size) :=
  (g.relationships node direction).map Relationship.other

/-- The node of a number, or the error that there is none. -/
def checkNode (g : Graph α) (node : Nat) : Except Error (Fin g.size) :=
  if h : node < g.size then .ok ⟨node, h⟩ else .error (.unknownNode node g.size)

end Graph

end NetworkAnalysis
