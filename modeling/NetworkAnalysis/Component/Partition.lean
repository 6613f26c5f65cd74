import NetworkAnalysis.Component.Search

/-!
# Strongly connected components as a result

Every node that the search came to an end with carries the number of its component. Components are
numbered in the order in which they are closed, so that a relationship between two components leads
from the higher number to the lower one.
-/

namespace NetworkAnalysis.Component

variable {n : Nat} {α : Type}

/-- The name of the algorithm in messages. -/
def algorithm : String := "StronglyConnectedComponents"

/-- The components of the nodes, and the sizes of the components. -/
structure Partition (n : Nat) where
  /-- The component of each node that has one. -/
  components : Table n (Option Nat)
  /-- The number of nodes in each component. -/
  sizes : Array Nat

namespace Partition

/-- Counts one more node of a component; the components below it get a place too. -/
def countIn (sizes : Array Nat) (component : Nat) : Array Nat :=
  let sizes := sizes ++ Array.replicate (component + 1 - sizes.size) 0
  sizes.modify component (· + 1)

/-- The partition that the components of the nodes make. -/
def ofComponents (components : Table n (Option Nat)) : Partition n where
  components := components
  sizes := (components.toList.filterMap id).foldl countIn #[]

/-- The component of a node. -/
def component? (p : Partition n) (node : Nat) : Option Nat :=
  (p.components.get? node).getD none

/-- The number of components. -/
def count (p : Partition n) : Nat :=
  p.sizes.size

/-- The size of the smallest component, zero if there is none. -/
def minSize (p : Partition n) : Nat :=
  p.sizes.toList.min?.getD 0

/-- The size of the largest component, zero if there is none. -/
def maxSize (p : Partition n) : Nat :=
  p.sizes.toList.max?.getD 0

/-- The nodes of a component, in the order of their numbers. -/
def members (p : Partition n) (component : Nat) : List (Fin n) :=
  (List.finRange n).filter fun node => p.components[node] == some component

end Partition

/-- Finds the components of a network. -/
def search [Scalar α] (neighbours : Fin n → List (Fin n)) (watch : Watch) :
    Report α (Partition n) :=
  let (s, progress, completed) := Search.start.roots neighbours watch (List.finRange n) #[]
  { value := .ofComponents s.components
    completed
    polls := s.polls
    progress := progress.toList ++ if completed then [Scalar.one] else [] }

/-- Finds the strongly connected components of a graph. -/
def compute [Scalar α] (g : Graph α) (watch : Watch) : Report α (Partition g.size) :=
  search (g.neighbours .outgoing) watch

end NetworkAnalysis.Component
