import NetworkAnalysis.Adjacency.Flat
import NetworkAnalysis.Adjacency.Packed
import NetworkAnalysis.Direction
import NetworkAnalysis.IdMap
import NetworkAnalysis.Scalar

/-!
# Graphs

A `Graph` is what a load leaves: a numbering of the nodes, the rows of relationships in one of two
storages, and weights by relationship id. It never changes afterwards.

Algorithms see a graph through `relationships` (the list of what leaves or enters a node) and `weight`.
`visit` shows the same list to a visitor and stops as soon as the visitor declines.
-/

namespace NetworkAnalysis

/-- The storages that a graph can be kept in. -/
inductive Storage where
  /-- Flat arrays. -/
  | dense
  /-- Paged arrays with compressed rows. -/
  | huge
deriving DecidableEq, Repr

/-- The name of a storage in reports and messages. -/
def Storage.name : Storage → String
  | dense => "dense"
  | huge => "huge"

/-- The largest number of nodes or relationships that a storage can number. -/
def Storage.capacity : Storage → Nat
  | dense => 2147483647
  | huge => maxPages * pageSize

/-- The rows of a graph with `n` nodes, in one of the storages. -/
inductive Adjacency (n : Nat) where
  /-- Rows in flat arrays. -/
  | flat (rows : Adjacency.Flat n)
  /-- Rows in compressed lists. -/
  | packed (rows : Adjacency.Packed n)

/-- The weights of relationships. -/
inductive Weights (α : Type) where
  /-- None were loaded. -/
  | absent
  /-- Every relationship has the same weight. -/
  | uniform (weight : α)
  /-- One weight for each relationship id, in a flat array. -/
  | table (weights : Array α)
  /-- One weight for each relationship id, in a paged array. -/
  | pages (weights : Paged α)

namespace Weights

variable {α : Type} [Scalar α]

/-- Whether weights were loaded. -/
def present : Weights α → Bool
  | absent => false
  | _ => true

/-- The weight of a relationship: one where none were loaded, and `none` beyond the end of a table. -/
def get? : Weights α → Nat → Option α
  | absent, _ => some Scalar.one
  | uniform weight, _ => some weight
  | table weights, id => weights[id]?
  | pages weights, id => weights.get? id

/-- The bytes that a table takes. -/
def byteCount : Weights α → Nat
  | absent => 0
  | uniform _ => 0
  | table weights => 8 * weights.size
  | pages weights => 8 * weights.stored

end Weights

/-- A loaded graph. -/
structure Graph (α : Type) where
  /-- The numbering of the nodes. -/
  ids : IdMap
  /-- The rows of relationships. -/
  adjacency : Adjacency ids.size
  /-- The weights of the relationships. -/
  weights : Weights α

namespace Graph

variable {α σ : Type} [Scalar α]

/-- The number of nodes. -/
abbrev size (g : Graph α) : Nat :=
  g.ids.size

/-- The storage that holds the graph. -/
def storage (g : Graph α) : Storage :=
  match g.adjacency with
  | .flat _ => .dense
  | .packed _ => .huge

/-- The number of relationships. -/
def relationshipCount (g : Graph α) : Nat :=
  match g.adjacency with
  | .flat rows => rows.relationshipCount
  | .packed rows => rows.relationshipCount

/-- The number of relationships that leave a node. -/
def outDegree (g : Graph α) (node : Fin g.size) : Nat :=
  match g.adjacency with
  | .flat rows => rows.outDegree node
  | .packed rows => rows.outDegree node

/-- The number of relationships that enter a node. -/
def inDegree (g : Graph α) (node : Fin g.size) : Nat :=
  match g.adjacency with
  | .flat rows => rows.inDegree node
  | .packed rows => rows.inDegree node

/-- The number of relationships of a node in a direction. -/
def degree (g : Graph α) (node : Fin g.size) (direction : Direction) : Nat :=
  (if direction.includesOutgoing then g.outDegree node else 0)
    + (if direction.includesIncoming then g.inDegree node else 0)

/-- Shows the relationships that leave a node to a visitor. -/
def visitOutgoing (g : Graph α) (node : Fin g.size) (visitor : Visitor σ (Relationship g.size))
    (state : σ) : σ × Bool :=
  match g.adjacency with
  | .flat rows => rows.visitOutgoing node visitor state
  | .packed rows => rows.visitOutgoing node visitor state

/-- Shows the relationships that enter a node to a visitor. -/
def visitIncoming (g : Graph α) (node : Fin g.size) (visitor : Visitor σ (Relationship g.size))
    (state : σ) : σ × Bool :=
  match g.adjacency with
  | .flat rows => rows.visitIncoming node visitor state
  | .packed rows => rows.visitIncoming node visitor state

/-- Shows the relationships of a node to a visitor, the outgoing ones first, until it declines. -/
def visit (g : Graph α) (node : Fin g.size) (direction : Direction)
    (visitor : Visitor σ (Relationship g.size)) (state : σ) : σ × Bool :=
  visitSides direction (g.visitOutgoing node visitor) (g.visitIncoming node visitor) state

/-- The relationships of a node, the outgoing ones first. -/
def relationships (g : Graph α) (node : Fin g.size) (direction : Direction) :
    List (Relationship g.size) :=
  collected (g.visit node direction)

/-- Whether weights were loaded. -/
def weighted (g : Graph α) : Bool :=
  g.weights.present

/-- The weight of a relationship, or `none` if the graph has weights and none for this id. -/
def weight? (g : Graph α) (id : Nat) : Option α :=
  g.weights.get? id

/-- The weight of a relationship of the graph. -/
def weight (g : Graph α) (id : Nat) : α :=
  (g.weight? id).getD Scalar.one

/-- The weight of the first relationship from a node to the node of a number. -/
def weightBetween? (g : Graph α) (source : Fin g.size) (target : Nat) : Option α :=
  (g.visit source .outgoing
    (fun found relationship =>
      if relationship.other.val = target then (some (g.weight relationship.id), false) else (found, true))
    none).1

/-- A handle on the graph for one worker: the same numbering, rows and weights, in the same storage. -/
def handle (g : Graph α) : Graph α where
  ids := g.ids
  adjacency :=
    match g.adjacency with
    | .flat rows => .flat rows
    | .packed rows => .packed rows
  weights := g.weights

/-- The bytes that the rows and the weights take. -/
def byteCount (g : Graph α) : Nat :=
  (match g.adjacency with
    | .flat rows => 4 * rows.entryCount
    | .packed rows => rows.byteCount)
  + g.weights.byteCount

/-- The graph whose node `i` has row `rows[i]`, in the given storage. -/
def ofRows (storage : Storage) (ids : IdMap) (rows : Table ids.size (List (Fin ids.size)))
    (weights : Weights α) : Graph α where
  ids := ids
  adjacency :=
    match storage with
    | .dense => .flat (.ofRows rows)
    | .huge => .packed (.ofRows rows)
  weights := weights

end Graph

end NetworkAnalysis
