/-!
# Directions of relationships

A traversal follows the relationships that leave a node, those that enter it, or both. `both` lists the
outgoing relationships and then the incoming ones; it merges nothing, so that a pair of nodes connected
both ways is seen twice.
-/

namespace NetworkAnalysis

/-- Which relationships of a node a traversal follows. -/
inductive Direction where
  /-- The relationships that leave the node. -/
  | outgoing
  /-- The relationships that enter the node. -/
  | incoming
  /-- The outgoing relationships, then the incoming ones. -/
  | both
deriving DecidableEq, Repr

namespace Direction

/-- The opposite direction. -/
def reverse : Direction → Direction
  | outgoing => incoming
  | incoming => outgoing
  | both => both

/-- Whether outgoing relationships are followed. -/
def includesOutgoing : Direction → Bool
  | outgoing => true
  | incoming => false
  | both => true

/-- Whether incoming relationships are followed. -/
def includesIncoming : Direction → Bool
  | outgoing => false
  | incoming => true
  | both => true

/-- The name of a direction. -/
def name : Direction → String
  | outgoing => "outgoing"
  | incoming => "incoming"
  | both => "both"

/-- Reads a direction by its name or by its short name, in any ASCII case. -/
def ofName? (text : String) : Option Direction :=
  match String.ofList (text.toList.map Char.toLower) with
  | "outgoing" => some outgoing
  | "out" => some outgoing
  | "incoming" => some incoming
  | "in" => some incoming
  | "both" => some both
  | "undirected" => some both
  | _ => none

/-- What is said about a text that names no direction. -/
def unknownMessage (text : String) : String :=
  "unknown direction '" ++ String.ofList (text.toList.map Char.toLower)
    ++ "' (expected outgoing|incoming|both)"

end Direction

end NetworkAnalysis
