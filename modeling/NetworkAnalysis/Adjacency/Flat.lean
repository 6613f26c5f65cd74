import NetworkAnalysis.Adjacency.CountingSort

/-!
# Flat adjacency

All rows stand behind each other in one array, and row `i` is the part between the offsets `i` and
`i + 1`. The place of an outgoing entry is the id of its relationship; an incoming entry carries the id
beside it.
-/

namespace NetworkAnalysis.Adjacency

/-- Adjacency in flat arrays. -/
structure Flat (n : Nat) where
  /-- Where the row of each node begins, and where the last one ends. -/
  outOffsets : Array Nat
  /-- The targets of all outgoing rows. -/
  outTargets : Array (Fin n)
  /-- Where the incoming row of each node begins, and where the last one ends. -/
  inOffsets : Array Nat
  /-- The sources of all incoming rows. -/
  inSources : Array Nat
  /-- The relationship ids of all incoming rows. -/
  inIds : Array Nat

namespace Flat

variable {n : Nat} {σ : Type}

/-- The first place of a row and the number of its entries. -/
def extent (offsets : Array Nat) (node : Fin n) : Nat × Nat :=
  let first := offsets.getD node 0
  (first, offsets.getD (node + 1) 0 - first)

/-- The number of outgoing relationships of a node. -/
def outDegree (a : Flat n) (node : Fin n) : Nat :=
  (extent a.outOffsets node).2

/-- The number of incoming relationships of a node. -/
def inDegree (a : Flat n) (node : Fin n) : Nat :=
  (extent a.inOffsets node).2

/-- The number of relationships. -/
def relationshipCount (a : Flat n) : Nat :=
  a.outTargets.size

/-- Shows `count` entries to a visitor, from place `place` on, as `entry` reads them. -/
def visitPlaces (entry : Nat → Option (Relationship n)) (visitor : Visitor σ (Relationship n)) :
    (count place : Nat) → σ → σ × Bool
  | 0, _, state => (state, true)
  | count + 1, place, state =>
    match entry place with
    | none => (state, true)
    | some relationship =>
      match visitor state relationship with
      | (state, true) => visitPlaces entry visitor count (place + 1) state
      | (state, false) => (state, false)

/-- The outgoing relationship at a place. -/
def outEntry (targets : Array (Fin n)) (place : Nat) : Option (Relationship n) :=
  targets[place]?.map fun target => ⟨target, place⟩

/-- The incoming relationship at a place. -/
def inEntry (sources ids : Array Nat) (place : Nat) : Option (Relationship n) :=
  sources[place]?.bind fun source =>
    if inRange : source < n then ids[place]?.map fun id => ⟨⟨source, inRange⟩, id⟩ else none

/-- Shows the relationships of a row to a visitor, as `entry` reads them. -/
def visitRow (offsets : Array Nat) (entry : Nat → Option (Relationship n)) (node : Fin n)
    (visitor : Visitor σ (Relationship n)) (state : σ) : σ × Bool :=
  let (first, count) := extent offsets node
  visitPlaces entry visitor count first state

/-- All relationships with both ends, as they are read from the arrays of the outgoing rows. -/
def readArcs (offsets : Array Nat) (targets : Array (Fin n)) : List (Arc n) :=
  arcsFrom fun node => collected (visitRow offsets (outEntry targets) node)

/-- The adjacency with the given rows. -/
def ofRows (rows : Table n (List (Fin n))) : Flat n :=
  let outOffsets := (offsets 0 (rows.toList.map List.length)).toArray
  let outTargets := rows.toList.flatten.toArray
  let incoming : Incoming (Array Nat) := countingSort (readArcs outOffsets outTargets)
  { outOffsets, outTargets
    inOffsets := incoming.firsts
    inSources := incoming.sources
    inIds := incoming.ids }

/-- Shows the outgoing relationships of a node to a visitor. -/
def visitOutgoing (a : Flat n) (node : Fin n) (visitor : Visitor σ (Relationship n)) (state : σ) :
    σ × Bool :=
  visitRow a.outOffsets (outEntry a.outTargets) node visitor state

/-- Shows the incoming relationships of a node to a visitor. -/
def visitIncoming (a : Flat n) (node : Fin n) (visitor : Visitor σ (Relationship n)) (state : σ) :
    σ × Bool :=
  visitRow a.inOffsets (inEntry a.inSources a.inIds) node visitor state

/-- Shows the relationships of a node to a visitor, the outgoing ones first, until it declines. -/
def visit (a : Flat n) (node : Fin n) (direction : Direction) (visitor : Visitor σ (Relationship n)) (state : σ) :
    σ × Bool :=
  visitSides direction (a.visitOutgoing node visitor) (a.visitIncoming node visitor) state

/-- The number of entries of all arrays. -/
def entryCount (a : Flat n) : Nat :=
  a.outOffsets.size + a.outTargets.size + a.inOffsets.size + a.inSources.size + a.inIds.size

end Flat

end NetworkAnalysis.Adjacency
