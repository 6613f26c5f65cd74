import NetworkAnalysis.Network
import NetworkAnalysis.Queue
import NetworkAnalysis.Run

/-!
# Exploring a network from one source

Centrality needs, for each source, the number of shortest paths to every node and the share of them that
passes through each node. The exploration walks breadth first: it dequeues a node, counts into each
neighbour one level further on the paths that end at the node, and remembers the node as a predecessor of
that neighbour. The sweep then goes through the dequeued nodes backwards and hands the dependency of each
node on to its predecessors.

The arrays are shared by all sources, one after the other; `Scratch.reset` clears only what the last source
has touched. The watch is asked for every node dequeued and for every node swept.
-/

namespace NetworkAnalysis.Centrality

variable {n : Nat} {α : Type} [Scalar α]

/-- The arrays of an exploration. -/
structure Scratch (n : Nat) (α : Type) where
  /-- The number of shortest paths from the source to each node. -/
  paths : Table n α
  /-- The number of steps from the source to each node found so far. -/
  distance : Table n (Option Nat)
  /-- The dependency of the source on each node. -/
  dependency : Table n α
  /-- The last nodes before each node on shortest paths, the one found last in front; a node is listed
  once for each step that it takes to the node. -/
  predecessors : Table n (List (Fin n))
  /-- The nodes dequeued so far, the last one in front. -/
  visited : List (Fin n)
  /-- The nodes found and not yet dequeued. -/
  queue : Queue (Fin n)

namespace Scratch

/-- Arrays that no source has touched. -/
def fresh : Scratch n α where
  paths := .replicate Scalar.zero
  distance := .replicate none
  dependency := .replicate Scalar.zero
  predecessors := .replicate []
  visited := []
  queue := {}

/-- The arrays with the entries of one node cleared. -/
def clear (w : Scratch n α) (node : Fin n) : Scratch n α :=
  { w with
    paths := w.paths.set node Scalar.zero
    distance := w.distance.set node none
    dependency := w.dependency.set node Scalar.zero
    predecessors := w.predecessors.set node [] }

/-- The arrays with the entries of all visited nodes cleared. -/
def reset (w : Scratch n α) : Scratch n α :=
  { w.visited.foldl clear w with visited := [], queue := {} }

/-- The arrays at the start of an exploration. -/
def start (w : Scratch n α) (source : Fin n) : Scratch n α :=
  let w := w.reset
  { w with
    paths := w.paths.set source Scalar.one
    distance := w.distance.set source (some 0)
    queue := w.queue.push source }

/-- Finds a node, unless it was found before. -/
def discover (w : Scratch n α) (node : Fin n) (level : Nat) : Scratch n α :=
  if w.distance[node] = none then
    { w with distance := w.distance.set node (some level), queue := w.queue.push node }
  else
    w

/-- Counts the paths to `node` as paths to a node one level further on. -/
def count (w : Scratch n α) (node neighbour : Fin n) (level : Nat) : Scratch n α :=
  if w.distance[neighbour] = some level then
    { w with
      paths := w.paths.set neighbour (w.paths[neighbour] + w.paths[node])
      predecessors := w.predecessors.set neighbour (node :: w.predecessors[neighbour]) }
  else
    w

/-- Takes a step from `node` to `neighbour`, where `level` is one more than the distance of `node`. -/
def touch (node : Fin n) (level : Nat) (w : Scratch n α) (neighbour : Fin n) : Scratch n α :=
  (w.discover neighbour level).count node neighbour level

/-- Takes all steps from a dequeued node, leaving the other nodes of the queue in `rest`. -/
def visit (neighbours : Fin n → List (Fin n)) (w : Scratch n α) (node : Fin n) (rest : Queue (Fin n)) :
    Scratch n α :=
  let level := (w.distance[node]).getD 0 + 1
  (neighbours node).foldl (touch node level) { w with visited := node :: w.visited, queue := rest }

/-- The number of nodes that are not dequeued yet: those in the queue and those not found. -/
def pending (w : Scratch n α) : Nat :=
  w.distance.count none + w.queue.size

@[simp]
theorem pending_touch (node : Fin n) (level : Nat) (w : Scratch n α) (neighbour : Fin n) :
    (touch node level w neighbour).pending = w.pending := by
  have counted : ∀ w : Scratch n α, (w.count node neighbour level).pending = w.pending := by
    intro w
    unfold count
    split <;> rfl
  unfold touch
  rw [counted]
  unfold discover
  split
  · next unknown =>
    have counted := Table.count_set_add_one (x := some level) unknown (by simp)
    simp only [pending, Queue.size_push]
    omega
  · rfl

theorem pending_visit (neighbours : Fin n → List (Fin n)) (w : Scratch n α) (node : Fin n)
    (rest : Queue (Fin n)) :
    (w.visit neighbours node rest).pending = w.distance.count none + rest.size := by
  have folded : ∀ (level : Nat) (nodes : List (Fin n)) (w : Scratch n α),
      (nodes.foldl (touch node level) w).pending = w.pending := by
    intro level nodes
    induction nodes with
    | nil => intro w; rfl
    | cons next rest ih => intro w; simp [ih]
  unfold visit
  rw [folded]
  rfl

/-- Dequeues nodes until none is left. Answers how often the watch has been asked, and whether it let
the exploration finish. -/
def explore (neighbours : Fin n → List (Fin n)) (watch : Watch) (polls : Nat) (w : Scratch n α) :
    Scratch n α × Nat × Bool :=
  match popped : w.queue.pop? with
  | none => (w, polls, true)
  | some (node, rest) =>
    if !watch polls then (w, polls + 1, false)
    else explore neighbours watch (polls + 1) (w.visit neighbours node rest)
termination_by w.pending
decreasing_by
  have := Queue.size_of_pop? popped
  rw [pending_visit]
  simp only [pending]
  omega

/-- Adds to the dependency of a node its number of paths times a share. -/
def credit (paths : Table n α) (share : α) (dependency : Table n α) (node : Fin n) : Table n α :=
  dependency.set node (dependency[node] + paths[node] * share)

/-- Hands the dependency of a node on to its predecessors, in proportion to their numbers of paths. -/
def handOn (w : Scratch n α) (node : Fin n) : Scratch n α :=
  let share := (Scalar.one + w.dependency[node]) / w.paths[node]
  { w with dependency := (w.predecessors[node]).foldl (credit w.paths share) w.dependency }

/-- Hands on the dependencies of a list of nodes. Answers as `explore` does. -/
def sweep (watch : Watch) : (polls : Nat) → List (Fin n) → Scratch n α → Scratch n α × Nat × Bool
  | polls, [], w => (w, polls, true)
  | polls, node :: rest, w =>
    if !watch polls then (w, polls + 1, false) else sweep watch (polls + 1) rest (w.handOn node)

/-- Explores from one source and sweeps back. The dependencies count only if the flag says that the
watch let both finish. -/
def singleSource (neighbours : Fin n → List (Fin n)) (watch : Watch) (polls : Nat) (w : Scratch n α)
    (source : Fin n) : Scratch n α × Nat × Bool :=
  match (w.start source).explore neighbours watch polls with
  | (w, polls, false) => (w, polls, false)
  | (w, polls, true) => sweep watch polls w.visited w

end Scratch

end NetworkAnalysis.Centrality
