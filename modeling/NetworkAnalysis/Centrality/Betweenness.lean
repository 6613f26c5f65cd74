import NetworkAnalysis.Centrality.Exploration

/-!
# Betweenness centrality

The score of a node adds up, over all sources, the dependencies of the sources on the node: for each
pair of other nodes, the share of the shortest paths between them that passes through it. When both
directions are followed every pair is met from both ends, and the scores are halved.

A source that the watch interrupts contributes nothing.
-/

namespace NetworkAnalysis.Centrality

variable {n : Nat} {α : Type} [Scalar α]

/-- The name of the algorithm in messages. -/
def algorithm : String := "BetweennessCentrality"

/-- A run over all sources under way. -/
structure Accumulation (n : Nat) (α : Type) where
  /-- The sums of the dependencies of the finished sources. -/
  scores : Table n α
  /-- The arrays that the sources share. -/
  scratch : Scratch n α
  /-- How often the watch was asked. -/
  polls : Nat
  /-- The fractions announced so far. -/
  progress : Array α

namespace Accumulation

/-- The run before its first source. -/
def start : Accumulation n α where
  scores := .replicate Scalar.zero
  scratch := .fresh
  polls := 0
  progress := #[]

/-- The scores with the dependencies of one source added, for all visited nodes but the source. -/
def commit (scores : Table n α) (source : Fin n) (w : Scratch n α) : Table n α :=
  w.visited.foldl
    (fun scores node => if node = source then scores else scores.set node (scores[node] + w.dependency[node]))
    scores

/-- The fraction of all sources that is done with a source. -/
def fractionAt (source : Fin n) : α :=
  if 1 < n then Scalar.fraction source (n - 1) else Scalar.one

/-- Goes through a list of sources. The flag says that the watch let all of them finish. -/
def run (neighbours : Fin n → List (Fin n)) (watch : Watch) :
    List (Fin n) → Accumulation n α → Accumulation n α × Bool
  | [], a => (a, true)
  | source :: rest, { scores, scratch, polls, progress } =>
    match scratch.singleSource neighbours watch polls source with
    | (scratch, polls, false) => ({ scores, scratch, polls, progress }, false)
    | (scratch, polls, true) =>
      run neighbours watch rest
        { scores := commit scores source scratch
          scratch, polls
          progress := progress.push (fractionAt source) }

end Accumulation

/-- The scores of all nodes. -/
structure Scores (n : Nat) (α : Type) where
  /-- The score of each node. -/
  values : Table n α

namespace Scores

/-- The nodes with their scores, in the order of their numbers. -/
def toList (s : Scores n α) : List (Fin n × α) :=
  (List.finRange n).map fun node => (node, s.values[node])

/-- Shows the scores in order to a visitor, until it declines. -/
def visit {σ : Type} (s : Scores n α) (visitor : Visitor σ (Fin n × α)) (state : σ) : σ :=
  (visitList visitor state s.toList).1

/-- The better of two nodes with scores: the first one, unless its score is lower. -/
def better (best : Option (Fin n × α)) (entry : Fin n × α) : Option (Fin n × α) :=
  match best with
  | none => some entry
  | some (node, top) => if entry.2 ≤ top then some (node, top) else some entry

/-- The node with the highest score; of several the first. -/
def max? (s : Scores n α) : Option (Fin n × α) :=
  s.toList.foldl better none

/-- Whether a node with a score comes before another in a ranking: the higher score does, and of equal
scores the smaller number that `name` gives to the nodes. -/
def outranks (name : Fin n → Nat) (a b : Fin n × α) : Bool :=
  match Scalar.order b.2 a.2 with
  | .lt => true
  | .eq => name a.1 ≤ name b.1
  | .gt => false

/-- The nodes with their scores, the highest scores first. -/
def ranked (s : Scores n α) (name : Fin n → Nat) : List (Fin n × α) :=
  s.toList.mergeSort (outranks name)

/-- The sum of all scores. -/
def sum (s : Scores n α) : α :=
  Scalar.sum s.values.toList

end Scores

/-- Scores the nodes of a network, where each pair of nodes is met from both ends if `halved` says so. -/
def score (neighbours : Fin n → List (Fin n)) (halved : Bool) (watch : Watch) :
    Report α (Scores n α) :=
  let (a, completed) := Accumulation.start.run neighbours watch (List.finRange n)
  { value := ⟨if halved then a.scores.map (· / Scalar.two) else a.scores⟩
    completed
    polls := a.polls
    progress := a.progress.toList }

/-- Scores the nodes of a graph along the relationships of a direction. -/
def betweenness (g : Graph α) (direction : Direction) (watch : Watch) :
    Report α (Scores g.size α) :=
  score (g.neighbours direction) (direction == .both) watch

end NetworkAnalysis.Centrality
