import NetworkAnalysis.Direction
import NetworkAnalysis.Table

/-!
# Rows of relationships

The relationships that leave each node of a graph with `n` nodes are given as `n` rows of targets.
Numbering them row after row gives every relationship its id. An `Arc` is a relationship with both ends.

A visitor looks at relationships one after the other, keeps a state of its own, and says after each
whether it wants to see more. `visitList` is what visiting a plain list means, and `collected` is the
list of all that a visitor is shown.
-/

namespace NetworkAnalysis

/-- A relationship as it is seen from one of its two ends. -/
structure Relationship (n : Nat) where
  /-- The node at the far end. -/
  other : Fin n
  /-- The number of the relationship. -/
  id : Nat
deriving DecidableEq, Repr

/-- A relationship with both ends. -/
structure Arc (n : Nat) where
  /-- The node that the relationship leaves. -/
  source : Fin n
  /-- The node that the relationship enters. -/
  target : Fin n
  /-- The number of the relationship. -/
  id : Nat
deriving DecidableEq, Repr

/-- A visitor with states of type `σ`: what it makes of one more entry, and whether it goes on. -/
abbrev Visitor (σ β : Type) := σ → β → σ × Bool

/-- Shows the entries of a list to a visitor until it declines. The flag says that it never did. -/
def visitList {σ β : Type} (visitor : Visitor σ β) : σ → List β → σ × Bool
  | state, [] => (state, true)
  | state, entry :: rest =>
    match visitor state entry with
    | (state, true) => visitList visitor state rest
    | (state, false) => (state, false)

/-- Shows the two sides of a node to a visitor as a direction asks, the outgoing one first. A visitor that declines
there is not shown the other one. -/
def visitSides {σ : Type} (direction : Direction) (outgoing incoming : σ → σ × Bool) (state : σ) : σ × Bool :=
  let (state, more) := if direction.includesOutgoing then outgoing state else (state, true)
  if more && direction.includesIncoming then incoming state else (state, more)

/-- The entries that are shown to a visitor who never declines, in order. -/
def collected {β : Type} (visit : Visitor (List β) β → List β → List β × Bool) : List β :=
  (visit (fun seen entry => (entry :: seen, true)) []).1.reverse

/-- A relationship that leaves a node, with both ends. -/
def Relationship.arcFrom {n : Nat} (source : Fin n) (relationship : Relationship n) : Arc n :=
  ⟨source, relationship.other, relationship.id⟩

namespace Adjacency

variable {n : Nat}

/-- The lengths of the parts before each place of a list of lengths, and the whole length at the end. -/
def offsets : Nat → List Nat → List Nat
  | total, [] => [total]
  | total, length :: rest => total :: offsets (total + length) rest

/-- The arcs that leave the nodes, node after node. -/
def arcsFrom (outgoing : Fin n → List (Relationship n)) : List (Arc n) :=
  (List.finRange n).flatMap fun source => (outgoing source).map (Relationship.arcFrom source)

end Adjacency

end NetworkAnalysis
