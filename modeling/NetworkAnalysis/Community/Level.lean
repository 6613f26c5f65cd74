import NetworkAnalysis.Network
import NetworkAnalysis.Sorting.Introsort

/-!
# Symmetric weighted graphs for community detection

A `Level` holds, for each of `n` nodes, its neighbours with weights, the weight of its self-loops, and its
degree, which is the sum of both. It is read from a network that follows relationships in both directions,
so that every relationship is an entry at both of its ends and a self-loop counts twice.

`coarsen` makes one node of each community. Weights between two communities are added up, and weights
within a community become a self-loop.
-/

namespace NetworkAnalysis.Community

variable {n k : Nat} {α : Type} [Scalar α]

/-- A symmetric weighted graph with `n` nodes. -/
structure Level (n : Nat) (α : Type) where
  /-- The other nodes that a node is connected to, with weights. -/
  rows : Table n (List (Fin n × α))
  /-- The weight of the self-loops of each node. -/
  selfLoops : Table n α
  /-- The weight of all entries of each node. -/
  degrees : Table n α
  /-- The sum of all degrees. -/
  total : α

namespace Level

/-- The graph with the given rows and self-loops. -/
def ofRows (rows : Table n (List (Fin n × α) × α)) : Level n α :=
  let degrees := rows.map fun (row, selfLoop) =>
    row.foldl (fun degree entry => degree + entry.2) selfLoop
  { rows := rows.map Prod.fst
    selfLoops := rows.map Prod.snd
    degrees
    total := Scalar.sum degrees.toList }

/-- The steps from a node to other nodes, and the weight of the steps to itself. -/
def splitRow (node : Fin n) (steps : List (Fin n × α)) : List (Fin n × α) × α :=
  (steps.filter fun step => step.1 ≠ node,
    (steps.filter fun step => step.1 = node).foldl (fun weight step => weight + step.2) Scalar.zero)

/-- The graph with the steps of a network as entries. -/
def ofNetwork (steps : Network n α) : Level n α :=
  ofRows (.ofFn fun node => splitRow node (steps node))

/-- The graph of all relationships, with their weights or with one each. -/
def ofGraph (g : Graph α) (weighted : Bool) : Level g.size α :=
  if weighted then ofNetwork (g.steps .both)
  else ofNetwork fun node => (g.neighbours .both node).map fun neighbour => (neighbour, Scalar.one)

/-- The weights that fall into each community: those within it, and the degrees of its nodes. -/
structure Tally (k : Nat) (α : Type) where
  /-- The weight of the entries within each community. -/
  inside : Table k α
  /-- The sum of the degrees of the nodes of each community. -/
  degrees : Table k α

namespace Tally

/-- The tally of no nodes. -/
def zero : Tally k α where
  inside := .replicate Scalar.zero
  degrees := .replicate Scalar.zero

/-- Adds a weight within a community. -/
def addInside (t : Tally k α) (c : Fin k) (weight : α) : Tally k α :=
  { t with inside := t.inside.set c (t.inside[c] + weight) }

/-- Adds the weights of one node. -/
def addNode (level : Level n α) (community : Table n (Fin k)) (t : Tally k α) (node : Fin n) :
    Tally k α :=
  let c := community[node]
  let { inside, degrees } := t
  let t : Tally k α := { inside, degrees := degrees.set c (degrees[c] + level.degrees[node]) }
  (level.rows[node]).foldl
    (fun t entry => if community[entry.1] = c then t.addInside c entry.2 else t)
    (t.addInside c level.selfLoops[node])

/-- What one community contributes to the modularity of a graph with a total weight. -/
def contribution (t : Tally k α) (total : α) (c : Fin k) : α :=
  t.inside[c] / total - (t.degrees[c] / total) * (t.degrees[c] / total)

end Tally

/-- The modularity of an assignment of communities: for each community the share of the weight within it,
less the square of its share of all degrees. A graph without weight has modularity zero. -/
def modularity (level : Level n α) (community : Table n (Fin k)) : α :=
  if level.total ≤ Scalar.zero then Scalar.zero
  else
    let tally := (List.finRange n).foldl (Tally.addNode level community) Tally.zero
    Scalar.sum ((List.finRange k).map (tally.contribution level.total))

/-- The entries of coarse nodes under construction. -/
structure Bundle (k : Nat) (α : Type) where
  /-- The entries to other communities, the last one in front. -/
  outside : Table k (List (Fin k × α))
  /-- The weight of the entries within each community. -/
  inside : Table k α

namespace Bundle

/-- The bundle of no nodes. -/
def empty : Bundle k α where
  outside := .replicate []
  inside := .replicate Scalar.zero

/-- Adds a weight within a community. -/
def addInside (b : Bundle k α) (c : Fin k) (weight : α) : Bundle k α :=
  { b with inside := b.inside.set c (b.inside[c] + weight) }

/-- Adds an entry from one community to another. -/
def addOutside (b : Bundle k α) (c d : Fin k) (weight : α) : Bundle k α :=
  { b with outside := b.outside.set c ((d, weight) :: b.outside[c]) }

/-- Adds an entry of a node of community `c`. -/
def addEntry (community : Table n (Fin k)) (c : Fin k) (b : Bundle k α) (entry : Fin n × α) :
    Bundle k α :=
  let d := community[entry.1]
  if d = c then b.addInside c entry.2 else b.addOutside c d entry.2

/-- Adds the entries of one node. -/
def addNode (level : Level n α) (community : Table n (Fin k)) (b : Bundle k α) (node : Fin n) :
    Bundle k α :=
  let c := community[node]
  (level.rows[node]).foldl (addEntry community c) (b.addInside c level.selfLoops[node])

end Bundle

/-- Adds up the weights of neighbouring entries for the same node. -/
def mergeRuns : List (Fin k × α) → List (Fin k × α)
  | [] => []
  | [entry] => [entry]
  | (d, weight) :: (e, next) :: rest =>
    if d = e then mergeRuns ((d, weight + next) :: rest)
    else (d, weight) :: mergeRuns ((e, next) :: rest)
termination_by entries => entries.length

/-- The entries of a coarse node: sorted by neighbour, with one entry for each. -/
def mergeRow (entries : List (Fin k × α)) : List (Fin k × α) :=
  mergeRuns (Sorting.introsort (fun a b => a.1 < b.1) entries)

/-- The graph with one node for each community. -/
def coarsen (level : Level n α) (community : Table n (Fin k)) : Level k α :=
  let bundle := (List.finRange n).foldl (Bundle.addNode level community) Bundle.empty
  ofRows (.ofFn fun c => (mergeRow (bundle.outside[c]).reverse, bundle.inside[c]))

end Level

end NetworkAnalysis.Community
