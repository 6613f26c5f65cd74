import NetworkAnalysis.Graph

/-!
# Statistics of a graph

Degrees of all nodes in both directions, the number of nodes without relationships, and the number of
relationships from a node to itself.
-/

namespace NetworkAnalysis

/-- The least, the greatest and the mean degree of a graph; all are zero in a graph without nodes. -/
structure DegreeStatistics (α : Type) where
  /-- The least degree. -/
  min : Nat
  /-- The greatest degree. -/
  max : Nat
  /-- The mean degree. -/
  mean : α
deriving Repr

/-- The statistics of a list of degrees. -/
def DegreeStatistics.ofDegrees {α : Type} [Scalar α] (degrees : List Nat) : DegreeStatistics α where
  min := degrees.min?.getD 0
  max := degrees.max?.getD 0
  mean := if degrees.isEmpty then Scalar.zero else Scalar.fraction (degrees.foldl (· + ·) 0) degrees.length

/-- What there is to say about the shape of a graph. -/
structure Statistics (α : Type) where
  /-- The degrees by relationships that leave a node. -/
  outgoing : DegreeStatistics α
  /-- The degrees by relationships that enter a node. -/
  incoming : DegreeStatistics α
  /-- The number of nodes without any relationship. -/
  isolated : Nat
  /-- The number of relationships from a node to itself. -/
  loops : Nat
deriving Repr

namespace Graph

variable {α : Type} [Scalar α]

/-- The degrees of all nodes in a direction, in the order of their numbers. -/
def degrees (g : Graph α) (direction : Direction) : List Nat :=
  (List.finRange g.size).map fun node => g.degree node direction

/-- The number of relationships from a node to itself. -/
def loopsAt (g : Graph α) (node : Fin g.size) : Nat :=
  (g.relationships node .outgoing).countP fun relationship => relationship.other == node

/-- The statistics of a graph. -/
def statistics (g : Graph α) : Statistics α where
  outgoing := .ofDegrees (g.degrees .outgoing)
  incoming := .ofDegrees (g.degrees .incoming)
  isolated := (g.degrees .both).count 0
  loops := (List.finRange g.size).foldl (fun count node => count + g.loopsAt node) 0

end Graph

end NetworkAnalysis
