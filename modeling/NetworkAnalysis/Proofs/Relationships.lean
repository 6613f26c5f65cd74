import NetworkAnalysis.Graph
import NetworkAnalysis.Proofs.Adjacency

/-!
# The relationships of a graph built from rows

A graph that is built from rows shows them through every view it offers: traversals with any visitor,
lists, degrees and counts. What enters a node can be read off the outgoing lists alone (`arrivals`), and so
can everything that a traversal follows in a direction (`along`).
-/

namespace NetworkAnalysis.Graph

open Adjacency

variable {α σ : Type}

/-- The graph shows the relationships of rows. -/
structure Shows (g : Graph α) (rows : Table g.size (List (Fin g.size))) : Prop where
  visitOutgoing : ∀ {σ : Type} (node : Fin g.size) (visitor : Visitor σ (Relationship g.size))
    (state : σ), g.visitOutgoing node visitor state = visitList visitor state (leaving rows node)
  visitIncoming : ∀ {σ : Type} (node : Fin g.size) (visitor : Visitor σ (Relationship g.size))
    (state : σ), g.visitIncoming node visitor state = visitList visitor state (arriving rows node)
  outDegree : ∀ node : Fin g.size, g.outDegree node = (leaving rows node).length
  inDegree : ∀ node : Fin g.size, g.inDegree node = (arriving rows node).length
  relationshipCount : g.relationshipCount = (arcs rows).length

theorem shows_ofRows (storage : Storage) (ids : IdMap) (rows : Table ids.size (List (Fin ids.size)))
    (weights : Weights α) (packable : storage = .huge → Packed.Packable rows) :
    (ofRows storage ids rows weights).Shows rows := by
  cases storage with
  | dense =>
    exact
      { visitOutgoing := Flat.visitOutgoing_ofRows rows
        visitIncoming := Flat.visitIncoming_ofRows rows
        outDegree := Flat.outDegree_ofRows rows
        inDegree := Flat.inDegree_ofRows rows
        relationshipCount := Flat.relationshipCount_ofRows rows }
  | huge =>
    have packable := packable rfl
    exact
      { visitOutgoing := Packed.visitOutgoing_ofRows packable
        visitIncoming := Packed.visitIncoming_ofRows packable
        outDegree := Packed.outDegree_ofRows
        inDegree := Packed.inDegree_ofRows packable
        relationshipCount := Packed.relationshipCount_ofRows }

/-- What a traversal of a node shows in a direction, outgoing relationships first. -/
def listing {n : Nat} (rows : Table n (List (Fin n))) (node : Fin n) (direction : Direction) :
    List (Relationship n) :=
  (if direction.includesOutgoing then leaving rows node else [])
    ++ (if direction.includesIncoming then arriving rows node else [])

namespace Shows

variable {g : Graph α} {rows : Table g.size (List (Fin g.size))}

/-- A visitor sees the listing of a node up to the entry where it declines. -/
theorem visit_eq_visitList (h : g.Shows rows) (node : Fin g.size) (direction : Direction)
    (visitor : Visitor σ (Relationship g.size)) (state : σ) :
    g.visit node direction visitor state = visitList visitor state (listing rows node direction) :=
  visitSides_eq_visitList visitor (h.visitOutgoing node visitor) (h.visitIncoming node visitor) direction state

theorem relationships_eq (h : g.Shows rows) (node : Fin g.size) (direction : Direction) :
    g.relationships node direction = listing rows node direction :=
  collected_eq (h.visit_eq_visitList node direction)

theorem relationships_outgoing (h : g.Shows rows) (node : Fin g.size) :
    g.relationships node .outgoing = leaving rows node := by
  rw [h.relationships_eq]
  exact List.append_nil _

theorem relationships_incoming (h : g.Shows rows) (node : Fin g.size) :
    g.relationships node .incoming = arriving rows node := by
  rw [h.relationships_eq]
  rfl

theorem relationships_both (h : g.Shows rows) (node : Fin g.size) :
    g.relationships node .both = g.relationships node .outgoing ++ g.relationships node .incoming := by
  rw [h.relationships_outgoing, h.relationships_incoming, h.relationships_eq]
  rfl

/-- The degree in a direction is the number of relationships listed. -/
theorem degree_eq_length (h : g.Shows rows) (node : Fin g.size) (direction : Direction) :
    g.degree node direction = (g.relationships node direction).length := by
  rw [h.relationships_eq, listing, List.length_append, degree, h.outDegree, h.inDegree]
  cases direction <;> simp [Direction.includesOutgoing, Direction.includesIncoming]

end Shows

/-! ## Incoming relationships read off the outgoing lists -/

/-- The relationships that enter a node, collected from the outgoing lists of all nodes. -/
def arrivals (g : Graph α) (node : Fin g.size) : List (Relationship g.size) :=
  (List.finRange g.size).flatMap fun source =>
    ((g.relationships source .outgoing).filter fun relationship => relationship.other = node).map
      fun relationship => ⟨source, relationship.id⟩

/-- The relationships that lead on from a node in a direction, as the outgoing lists of all nodes say. -/
def along (g : Graph α) (direction : Direction) (node : Fin g.size) : List (Relationship g.size) :=
  (if direction.includesOutgoing then g.relationships node .outgoing else [])
    ++ (if direction.includesIncoming then g.arrivals node else [])

namespace Shows

variable {g : Graph α} {rows : Table g.size (List (Fin g.size))}

theorem arriving_eq_arrivals (h : g.Shows rows) (node : Fin g.size) :
    arriving rows node = g.arrivals node := by
  unfold arriving entering arcs arcsFrom arrivals
  rw [List.filter_flatMap, List.map_flatMap]
  congr 1
  funext source
  rw [h.relationships_outgoing, List.filter_map, List.map_map]
  congr 1
  exact List.filter_congr fun relationship _ => decide_eq_decide.2 Fin.ext_iff.symm

/-- A traversal follows what the outgoing lists say. -/
theorem relationships_eq_along (h : g.Shows rows) (node : Fin g.size) (direction : Direction) :
    g.relationships node direction = g.along direction node := by
  rw [h.relationships_eq, listing, along, h.arriving_eq_arrivals, h.relationships_outgoing]

end Shows

end NetworkAnalysis.Graph
