import NetworkAnalysis.Heap
import NetworkAnalysis.Network
import NetworkAnalysis.Run

/-!
# Shortest paths from one source

The search settles nodes one by one, cheapest first. A node that has been reached but not settled waits
in the frontier with the cost of the path found so far; when a cheaper path turns up it is put there
once more, and the entries left behind are passed over later. Entries of equal cost leave the frontier
in the order in which they entered it, and a node changes its predecessor only for a cheaper path, so
that of several cheapest paths the one found first is kept.

Steps as heavy as `Scalar.unreachable` are never taken. The search ends when the frontier is empty, when
the target is settled, or when the watch stops it; it asks the watch once for every entry that it takes
out of the frontier.
-/

namespace NetworkAnalysis.ShortestPath

variable {n : Nat} {α : Type} [Scalar α]

/-- An entry of the frontier: a node with the cost of a path to it. -/
structure Candidate (n : Nat) (α : Type) where
  /-- The cost of the path. -/
  cost : α
  /-- How many entries were made before this one. -/
  sequence : Nat
  /-- The node at the end of the path. -/
  node : Fin n

/-- Whether an entry leaves the frontier before another: the cheaper one, and of two with equal cost
the one made first. -/
def Candidate.before (a b : Candidate n α) : Bool :=
  match Scalar.order a.cost b.cost with
  | .lt => true
  | .eq => a.sequence < b.sequence
  | .gt => false

/-- What is known about the nodes while the search goes on. -/
structure Tree (n : Nat) (α : Type) where
  /-- The cost of the cheapest path found to each node. -/
  costs : Table n α
  /-- The last node before each node on that path. -/
  predecessors : Table n (Option (Fin n))
  /-- The nodes that wait to be settled. -/
  frontier : Heap (Candidate n α)
  /-- How many entries have been put into the frontier after the first one. -/
  pushed : Nat

namespace Tree

/-- The tree before the first step: only the source is reached, at no cost. -/
def start (source : Fin n) : Tree n α where
  costs := (Table.replicate Scalar.unreachable).set source Scalar.zero
  predecessors := .replicate none
  frontier := Heap.empty.push Candidate.before ⟨Scalar.zero, 0, source⟩
  pushed := 0

/-- Records a path to `neighbour` that comes from `node` and costs `cost`. -/
def reach (t : Tree n α) (node neighbour : Fin n) (cost : α) : Tree n α where
  costs := t.costs.set neighbour cost
  predecessors := t.predecessors.set neighbour (some node)
  frontier := t.frontier.push Candidate.before ⟨cost, t.pushed + 1, neighbour⟩
  pushed := t.pushed + 1

/-- Tries a step from a node whose cost is settled. It counts if it leads to a node that is not settled,
weighs less than what counts as unreachable, and gives a cheaper path than the best so far. -/
def relax (settled : Table n Bool) (node : Fin n) (cost : α) (t : Tree n α) (step : Fin n × α) :
    Tree n α :=
  let (neighbour, weight) := step
  if settled[neighbour] then t
  else if Scalar.unreachable ≤ weight then t
  else if cost + weight < t.costs[neighbour] then t.reach node neighbour (cost + weight)
  else t

/-- Tries all steps from a node. -/
def expand (steps : Network n α) (settled : Table n Bool) (node : Fin n) (cost : α)
    (t : Tree n α) : Tree n α :=
  (steps node).foldl (relax settled node cost) t

end Tree

/-- A search under way. -/
structure Search (n : Nat) (α : Type) where
  /-- What is known about the nodes. -/
  tree : Tree n α
  /-- Which nodes are settled. -/
  settled : Table n Bool
  /-- The settled nodes, in the order in which they were settled. -/
  order : Array (Fin n)
  /-- How often the watch was asked. -/
  polls : Nat
  /-- The fractions announced so far. -/
  progress : Array α

namespace Search

/-- The search before its first step. -/
def start (source : Fin n) : Search n α where
  tree := .start source
  settled := .replicate false
  order := #[]
  polls := 0
  progress := #[]

/-- How many nodes are settled between two announcements of progress. -/
def progressInterval : Nat := 4096

/-- Announces the fraction of settled nodes every so many nodes. -/
def announce (s : Search n α) : Search n α :=
  if s.order.size % progressInterval = 0 then
    { s with progress := s.progress.push (Scalar.fraction s.order.size n) }
  else
    s

/-- Passes over an entry of the frontier, leaving the others in `rest`. -/
def skip (s : Search n α) (rest : Heap (Candidate n α)) : Search n α :=
  { s with tree := { s.tree with frontier := rest }, polls := s.polls + 1 }

/-- Settles a node, leaving the other entries of the frontier in `rest`. -/
def settle (s : Search n α) (node : Fin n) (rest : Heap (Candidate n α)) : Search n α :=
  { s with
    tree := { s.tree with frontier := rest }
    settled := s.settled.set node true
    order := s.order.push node
    polls := s.polls + 1 }

/-- Tries all steps from a node just settled. -/
def expand (steps : Network n α) (s : Search n α) (node : Fin n) (cost : α) : Search n α :=
  announce { s with tree := s.tree.expand steps s.settled node cost }

omit [Scalar α] in
theorem count_settle_lt (settled : Table n Bool) (node : Fin n) (h : settled[node] = false) :
    (settled.set node true).count false < settled.count false := by
  have counted := Table.count_set_add_one (x := true) h (by simp)
  omega

@[simp]
theorem settled_expand (steps : Network n α) (s : Search n α) (node : Fin n) (cost : α) :
    (s.expand steps node cost).settled = s.settled := by
  unfold expand announce
  split <;> rfl

/-- Runs a search to its end. The flag says that it was not stopped. -/
def run (steps : Network n α) (target : Option (Fin n)) (watch : Watch) (s : Search n α) :
    Search n α × Bool :=
  match popped : s.tree.frontier.pop? Candidate.before with
  | none => (s, true)
  | some (candidate, rest) =>
    if !watch s.polls then ({ s with polls := s.polls + 1 }, false)
    else if waiting : s.settled[candidate.node] then run steps target watch (s.skip rest)
    else
      let settled := s.settle candidate.node rest
      if target = some candidate.node then (settled, true)
      else run steps target watch (settled.expand steps candidate.node candidate.cost)
termination_by (s.settled.count false, s.tree.frontier.size)
decreasing_by
  · have := Heap.size_of_pop? popped
    simp only [skip]
    exact Prod.Lex.right _ (by omega)
  · refine Prod.Lex.left _ _ ?_
    simp only [settled_expand, settle]
    exact count_settle_lt _ _ (by simpa using waiting)

end Search

end NetworkAnalysis.ShortestPath
