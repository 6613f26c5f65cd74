import NetworkAnalysis.Adjacency.Compressed
import NetworkAnalysis.Adjacency.CountingSort

/-!
# Packed adjacency

The rows of a graph as compressed lists over paged arrays, for graphs beyond the size of flat ones. The
number of an entry among all outgoing ones is the id of its relationship; the ids of incoming entries
are kept in a paged array of their own. Rows have to be sorted by target.
-/

namespace NetworkAnalysis.Adjacency

/-- Adjacency in compressed lists. -/
structure Packed (n : Nat) where
  /-- The targets of each node, ascending. -/
  outgoing : Compressed
  /-- The sources of the relationships that enter each node, ascending. -/
  incoming : Compressed
  /-- The relationship ids of all incoming entries. -/
  inIds : Paged Nat

namespace Packed

variable {n : Nat} {σ : Type}

/-- The number of outgoing relationships of a node. -/
def outDegree (a : Packed n) (node : Fin n) : Nat :=
  a.outgoing.degree node

/-- The number of incoming relationships of a node. -/
def inDegree (a : Packed n) (node : Fin n) : Nat :=
  a.incoming.degree node

/-- The number of relationships. -/
def relationshipCount (a : Packed n) : Nat :=
  a.outgoing.entryCount

/-- A visitor of relationships as a visitor of decoded entries, where `id?` finds the id of an entry by
its number. An entry that is no relationship is passed over. -/
def decoding (id? : Nat → Option Nat) (visitor : Visitor σ (Relationship n)) :
    Visitor σ (Nat × Nat) :=
  fun state (other, number) =>
    if inRange : other < n then
      match id? number with
      | some id => visitor state ⟨⟨other, inRange⟩, id⟩
      | none => (state, true)
    else
      (state, true)

/-- The entries that belong to each node, where `firsts` says where the part of a node begins. -/
def parts (n : Nat) (firsts entries : Paged Nat) : List (List Nat) :=
  (List.range n).map fun node =>
    let first := Cells.get firsts node
    (List.range' first (Cells.get firsts (node + 1) - first)).map (Cells.get entries)

/-- All relationships with both ends, as they are read from the compressed rows. -/
def readArcs (outgoing : Compressed) : List (Arc n) :=
  arcsFrom fun node => collected fun visitor => outgoing.visit node (decoding some visitor)

/-- The adjacency with the given rows, each sorted by target. -/
def ofRows (rows : Table n (List (Fin n))) : Packed n :=
  let outgoing := Compressed.ofLists (rows.toList.map fun row => row.map Fin.val)
  let incoming : Incoming (Paged Nat) := countingSort (n := n) (readArcs outgoing)
  { outgoing
    incoming := .ofLists (parts n incoming.firsts incoming.sources)
    inIds := incoming.ids }

/-- Shows the outgoing relationships of a node to a visitor. -/
def visitOutgoing (a : Packed n) (node : Fin n) (visitor : Visitor σ (Relationship n)) (state : σ) :
    σ × Bool :=
  a.outgoing.visit node (decoding some visitor) state

/-- Shows the incoming relationships of a node to a visitor. -/
def visitIncoming (a : Packed n) (node : Fin n) (visitor : Visitor σ (Relationship n)) (state : σ) :
    σ × Bool :=
  a.incoming.visit node (decoding a.inIds.get? visitor) state

/-- Shows the relationships of a node to a visitor, the outgoing ones first, until it declines. -/
def visit (a : Packed n) (node : Fin n) (direction : Direction) (visitor : Visitor σ (Relationship n)) (state : σ) :
    σ × Bool :=
  visitSides direction (a.visitOutgoing node visitor) (a.visitIncoming node visitor) state

/-- The bytes that the arrays take. -/
def byteCount (a : Packed n) : Nat :=
  a.outgoing.byteCount + a.incoming.byteCount + 8 * a.inIds.stored

end Packed

end NetworkAnalysis.Adjacency
