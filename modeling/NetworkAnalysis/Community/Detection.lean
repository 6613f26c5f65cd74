import NetworkAnalysis.Community.Move
import NetworkAnalysis.Community.Relabel
import NetworkAnalysis.Run
import NetworkAnalysis.Settings

/-!
# Finding communities

Communities are found level by level. A level starts with every node in a community of its own and runs
passes of moves until one of them moves nothing. Then its communities are renumbered, each of them becomes
one node of the next level, and the assignment of the base nodes is carried along. The search ends with a
level at which nothing moves, at the cap of levels, or when the watch stops it; the watch is asked before
every pass, and an interrupted level counts if something moved at it.
-/

namespace NetworkAnalysis.Community

variable {n m : Nat} {α : Type} [Scalar α]

/-- The name of the algorithm in messages. -/
def algorithm : String := "Louvain"

/-- What bounds a search for communities. -/
structure Limits where
  /-- The largest number of passes at a level. -/
  maxIterations : Nat
  /-- The largest number of levels. -/
  maxLevels : Nat
  /-- The number of workers that share a pass; `none` is a sequential pass. -/
  workers : Option Nat
deriving DecidableEq, Repr

/-- A pass in the way that the limits ask for. -/
def Limits.pass (limits : Limits) (level : Level n α) (state : MoveState n α) : MoveState n α × Nat :=
  match limits.workers with
  | none => sequentialPass level state
  | some workers => partitionedPass level workers state

/-- What the passes of one level have led to. -/
structure LevelRun (n : Nat) (α : Type) where
  /-- The communities after the last pass. -/
  state : MoveState n α
  /-- The number of passes. -/
  passes : Nat
  /-- The number of nodes moved by all passes. -/
  moves : Nat
  /-- How often the watch was asked in the whole run. -/
  polls : Nat
  /-- Whether the watch let the level finish. -/
  completed : Bool

/-- Runs at most `left` passes, until one of them moves nothing. -/
def optimizeFrom (limits : Limits) (watch : Watch) (level : Level n α) :
    (left : Nat) → (state : MoveState n α) → (passes moves polls : Nat) → LevelRun n α
  | 0, state, passes, moves, polls => { state, passes, moves, polls, completed := true }
  | left + 1, state, passes, moves, polls =>
    if !watch polls then { state, passes, moves, polls := polls + 1, completed := false }
    else
      let (state, moved) := limits.pass level state
      if moved = 0 then
        { state, passes := passes + 1, moves, polls := polls + 1, completed := true }
      else
        optimizeFrom limits watch level left state (passes + 1) (moves + moved) (polls + 1)

/-- Runs the passes of a level. -/
def optimize (limits : Limits) (watch : Watch) (polls : Nat) (level : Level n α) : LevelRun n α :=
  optimizeFrom limits watch level limits.maxIterations (.singletons level) 0 0 polls

/-- The communities of `n` nodes, and how they were found. -/
structure Communities (n : Nat) (α : Type) where
  /-- The community of each node. -/
  assignment : Table n Nat
  /-- The number of passes at all levels. -/
  iterations : Nat
  /-- The number of levels at which something moved. -/
  levels : Nat
  /-- The modularity of the assignment. -/
  modularity : α
  /-- The modularity after each level at which something moved. -/
  levelModularities : Array α

namespace Communities

/-- The number of communities. -/
def count (c : Communities n α) : Nat :=
  countCommunities c.assignment.toList

end Communities

/-- A search among `n` base nodes that has come to a level of `m` nodes. -/
structure Climb (n m : Nat) (α : Type) where
  /-- The graph of the level. -/
  level : Level m α
  /-- The node of the level that each base node belongs to. -/
  place : Table n (Fin m)
  /-- The number of passes so far. -/
  iterations : Nat
  /-- The number of levels so far. -/
  levels : Nat
  /-- The modularity of the assignment so far. -/
  modularity : α
  /-- The modularity after each level so far. -/
  levelModularities : Array α
  /-- How often the watch was asked. -/
  polls : Nat
  /-- The fractions announced so far. -/
  progress : Array α

namespace Climb

/-- The search before its first level. -/
def start (level : Level n α) : Climb n n α where
  level := level
  place := .ofFn id
  iterations := 0
  levels := 0
  modularity := level.modularity (.ofFn id)
  levelModularities := #[]
  polls := 0
  progress := #[]

/-- What the search has found. -/
def found (c : Climb n m α) : Communities n α where
  assignment := c.place.map Fin.val
  iterations := c.iterations
  levels := c.levels
  modularity := c.modularity
  levelModularities := c.levelModularities

/-- The report of a search that ends here. -/
def report (c : Climb n m α) (completed : Bool) : Report α (Communities n α) where
  value := c.found
  completed := completed
  polls := c.polls
  progress := c.progress.toList ++ if completed then [Scalar.one] else []

/-- The search after passes at its level that moved nothing. -/
def rest (c : Climb n m α) (run : LevelRun m α) : Climb n m α :=
  { c with iterations := c.iterations + run.passes, polls := run.polls }

/-- The search on the next level: each community that the passes have left is one node. -/
def next (limits : Limits) (c : Climb n m α) (run : LevelRun m α) :
    Climb n (renumber run.state.community).count α :=
  let communities := renumber run.state.community
  let modularity := c.level.modularity communities.community
  { level := c.level.coarsen communities.community
    place := c.place.map fun node => communities.community[node]
    iterations := c.iterations + run.passes
    levels := c.levels + 1
    modularity
    levelModularities := c.levelModularities.push modularity
    polls := run.polls
    progress := c.progress.push (Scalar.fraction (c.levels + 1) limits.maxLevels) }

/-- Climbs at most `left` levels. -/
def run (limits : Limits) (watch : Watch) : (left : Nat) → {m : Nat} → Climb n m α →
    Report α (Communities n α)
  | 0, _, c => c.report true
  | left + 1, _, c =>
    let levelRun := optimize limits watch c.polls c.level
    if levelRun.moves = 0 then (c.rest levelRun).report levelRun.completed
    else
      let c := c.next limits levelRun
      if levelRun.completed then run limits watch left c else c.report false

end Climb

/-- Finds communities in a symmetric graph. -/
def detectIn (level : Level n α) (limits : Limits) (watch : Watch) : Report α (Communities n α) :=
  (Climb.start level).run limits watch limits.maxLevels

/-- Refuses caps of zero, and weights that were not loaded. -/
def checkSettings (g : Graph α) (settings : CommunitySettings) : Except Error Unit := do
  requirePositive .maxIterations settings.maxIterations
  requirePositive .maxLevels settings.maxLevels
  if settings.weighted && !g.weighted then throw (.missingWeights algorithm)

/-- Refuses to work without workers. -/
def checkWorkers (workers : Nat) : Except Error Unit :=
  requirePositive .concurrency workers

/-- Finds communities in a graph. The passes are sequential unless a number of workers is given. -/
def detect (g : Graph α) (settings : CommunitySettings) (workers : Option Nat) (watch : Watch) :
    Report α (Communities g.size α) :=
  detectIn (.ofGraph g settings.weighted)
    { maxIterations := settings.maxIterations, maxLevels := settings.maxLevels, workers } watch

/-- The first node of a list of communities whose community is not below `nodes`, with the community. -/
def outOfRange? (nodes : Nat) (communities : Array Nat) : Option (Nat × Nat) :=
  communities.zipIdx.find? fun (community, _) => nodes ≤ community

theorem lt_of_outOfRange?_eq_none {nodes : Nat} {communities : Array Nat}
    (below : outOfRange? nodes communities = none) (node : Nat) (h : node < communities.size) :
    communities[node] < nodes := by
  simp only [outOfRange?, Array.find?_eq_none, decide_eq_true_eq] at below
  have := below (communities[node], node) (by simp [Array.mem_zipIdx_iff_getElem?])
  simpa using this

/-- Reads a list of communities as an assignment. It has to cover all nodes and to number its communities
below the number of nodes. -/
def readAssignment (nodes : Nat) (communities : Array Nat) : Except Error (Assignment nodes) :=
  if covers : communities.size = nodes then
    match outOfRange? nodes communities with
    | some (community, node) => .error (.misconfigured (.communityRange node community nodes))
    | none =>
      .ok
        { count := countCommunities communities.toList
          community := .ofFn fun node =>
            have h : node.val < communities.size := by rw [covers]; exact node.isLt
            ⟨communities[node.val], lt_countCommunities (Array.getElem_mem_toList h)⟩ }
  else
    .error (.misconfigured (.assignmentLength communities.size nodes))

/-- The modularity of an assignment of communities to the nodes of a graph. -/
def modularity (g : Graph α) (communities : Array Nat) (weighted : Bool) : Except Error α := do
  let assignment ← readAssignment g.size communities
  if weighted && !g.weighted then throw (.missingWeights "modularity")
  pure ((Level.ofGraph g weighted).modularity assignment.community)

end NetworkAnalysis.Community
