import NetworkAnalysis.Community.Level

/-!
# Moving nodes between communities

A node gains by a move what the weight of its entries into a community exceeds the weight to expect there
from the degrees. `best` finds the community with the largest gain: the current one, unless a
neighbouring community is better by more than a slack.

`sequentialPass` moves the nodes one after the other, each against the state that the moves before it have
left. `partitionedPass` cuts the nodes into parts, lets every part propose moves against the state at the
start of the pass, and takes the proposals back if together they lower the modularity.
-/

namespace NetworkAnalysis.Community

variable {n : Nat} {α : Type} [Scalar α]

/-- An assignment of communities, with what is known of each community. -/
structure MoveState (n : Nat) (α : Type) where
  /-- The community of each node. -/
  community : Table n (Fin n)
  /-- The sum of the degrees of the nodes of each community. -/
  total : Table n α
  /-- The number of nodes of each community. -/
  size : Table n Nat

namespace MoveState

/-- Every node in a community of its own. -/
def singletons (level : Level n α) : MoveState n α where
  community := .ofFn id
  total := level.degrees
  size := .replicate 1

/-- Moves a node of the given degree to a community. -/
def relocate (s : MoveState n α) (node target : Fin n) (degree : α) : MoveState n α :=
  let { community, total, size } := s
  let source := community[node]
  let total := total.set source (total[source] - degree)
  let size := size.set source (size[source] - 1)
  { community := community.set node target
    total := total.set target (total[target] + degree)
    size := size.set target (size[target] + 1) }

end MoveState

/-- The weights from one node into the communities around it. Entries of communities that are not listed
are zero. -/
structure Scratch (n : Nat) (α : Type) where
  /-- The weight into each community. -/
  weight : Table n α
  /-- Which communities are listed. -/
  seen : Table n Bool
  /-- The communities with a neighbour, in the order in which they were met. -/
  touched : Array (Fin n)

namespace Scratch

/-- The table without weights. -/
def fresh : Scratch n α where
  weight := .replicate Scalar.zero
  seen := .replicate false
  touched := #[]

/-- Lists a community. -/
def touch (s : Scratch n α) (c : Fin n) : Scratch n α :=
  if s.seen[c] then s else { s with seen := s.seen.set c true, touched := s.touched.push c }

/-- Adds a weight into a community. -/
def add (s : Scratch n α) (c : Fin n) (weight : α) : Scratch n α :=
  let { weight := weights, seen, touched } := s.touch c
  { weight := weights.set c (weights[c] + weight), seen, touched }

/-- Clears the entries of one community. -/
def clearAt (s : Scratch n α) (c : Fin n) : Scratch n α :=
  { s with weight := s.weight.set c Scalar.zero, seen := s.seen.set c false }

/-- Clears the entries of all listed communities. -/
def clear (s : Scratch n α) : Scratch n α :=
  let { weight, seen, touched } := s
  { touched.foldl clearAt { weight, seen, touched := #[] } with touched := #[] }

/-- The table of the weights from one node. -/
def collect (s : Scratch n α) (community : Table n (Fin n)) (row : List (Fin n × α)) : Scratch n α :=
  row.foldl (fun s entry => s.add community[entry.1] entry.2) s.clear

/-- What the weight `weight` into a community with degrees `total` gains a node. -/
def gain (weight total degree whole : α) : α :=
  weight - total * degree / whole

/-- The better of the best community so far and another one; `slack` is what it has to be better by. -/
def better (s : Scratch n α) (total : Table n α) (degree whole slack : α) (best : Fin n × α)
    (candidate : Fin n) : Fin n × α :=
  let candidateGain := gain s.weight[candidate] total[candidate] degree whole
  if best.2 + slack < candidateGain then (candidate, candidateGain) else best

/-- The community that gains a node most, when the table holds the weights from the node. -/
def choose (s : Scratch n α) (level : Level n α) (state : MoveState n α) (node : Fin n) : Fin n :=
  let current := state.community[node]
  let degree := level.degrees[node]
  let own := gain s.weight[current] (state.total[current] - degree) degree level.total
  let others := s.touched.toList.filter fun candidate => candidate ≠ current
  (others.foldl (s.better state.total degree level.total (Scalar.slack * level.total))
    (current, own)).1

/-- The best community for a node, and the table afterwards. In a graph without weight every node stays
where it is. -/
def best (s : Scratch n α) (level : Level n α) (state : MoveState n α) (node : Fin n) :
    Fin n × Scratch n α :=
  if level.total ≤ Scalar.zero then (state.community[node], s)
  else
    let s := s.collect state.community level.rows[node]
    (s.choose level state node, s)

end Scratch

/-- A pass over the nodes under way. -/
structure Pass (n : Nat) (α : Type) where
  /-- The communities as they are. -/
  state : MoveState n α
  /-- The table that all nodes share. -/
  scratch : Scratch n α
  /-- The number of nodes moved. -/
  moves : Nat

/-- Moves one node to its best community. -/
def Pass.visit (level : Level n α) (pass : Pass n α) (node : Fin n) : Pass n α :=
  let { state, scratch, moves } := pass
  let (target, scratch) := scratch.best level state node
  if target = state.community[node] then { state, scratch, moves }
  else { state := state.relocate node target level.degrees[node], scratch, moves := moves + 1 }

/-- Moves every node in order. Answers the new state and the number of nodes moved. -/
def sequentialPass (level : Level n α) (state : MoveState n α) : MoveState n α × Nat :=
  let pass := (List.finRange n).foldl (Pass.visit level) { state, scratch := .fresh, moves := 0 }
  (pass.state, pass.moves)

/-- The parts that `workers` workers share the nodes in: as many as there are workers, but no more than
nodes, of equal length but for the last ones. -/
def partitions (n workers : Nat) : List (List (Fin n)) :=
  let count := min workers n
  let length := (n + count - 1) / count
  (List.range count).map fun part => ((List.finRange n).drop (part * length)).take length

/-- Whether a move would take the only node of a community to the only node of another with a higher
number. Of two such moves that swap nodes forever, one is allowed. -/
def swapsSingletons (state : MoveState n α) (current target : Fin n) : Bool :=
  state.size[current] == 1 && state.size[target] == 1 && decide (current < target)

/-- Proposals under way: the table that the nodes of a part share, and the moves, the last one in
front. -/
structure Proposing (n : Nat) (α : Type) where
  /-- The table that the nodes share. -/
  scratch : Scratch n α
  /-- The proposed moves: a node and its new community. -/
  moves : List (Fin n × Fin n)

/-- Proposes a move of one node, if there is a better community for it. -/
def Proposing.visit (level : Level n α) (state : MoveState n α) (p : Proposing n α) (node : Fin n) :
    Proposing n α :=
  let { scratch, moves } := p
  let current := state.community[node]
  let (target, scratch) := scratch.best level state node
  if target ≠ current && !swapsSingletons state current target then
    { scratch, moves := (node, target) :: moves }
  else
    { scratch, moves }

/-- The moves that a part of the nodes proposes. -/
def propose (level : Level n α) (state : MoveState n α) (nodes : List (Fin n)) :
    List (Fin n × Fin n) :=
  (nodes.foldl (Proposing.visit level state) { scratch := .fresh, moves := [] }).moves.reverse

/-- Carries out a proposed move. -/
def carryOut (level : Level n α) (state : MoveState n α) (move : Fin n × Fin n) : MoveState n α :=
  state.relocate move.1 move.2 level.degrees[move.1]

/-- Lets every part of the nodes propose moves, and carries all of them out unless they lower the
modularity by more than a slack. Answers the new state and the number of nodes moved. -/
def partitionedPass (level : Level n α) (workers : Nat) (state : MoveState n α) :
    MoveState n α × Nat :=
  let moves := (partitions n workers).flatMap (propose level state)
  if moves.isEmpty then (state, 0)
  else
    let moved := moves.foldl (carryOut level) state
    if level.modularity moved.community + Scalar.slack < level.modularity state.community then
      (state, 0)
    else
      (moved, moves.length)

end NetworkAnalysis.Community
