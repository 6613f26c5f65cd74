import NetworkAnalysis.Community.Detection
import NetworkAnalysis.Proofs.Community.Scratch
import NetworkAnalysis.Proofs.LoadSuccess

/-!
# The number of workers does not matter

However many workers share a pass, their parts put together are all nodes in order, and what a node proposes
depends on the state at the start of the pass alone. The proposals of all parts are therefore the same list, the
pass is the same function, and so is the whole search.
-/

namespace NetworkAnalysis.Community

variable {n : Nat} {α : Type} [Scalar α]

/-! ## The parts -/

/-- Parts of one length cut off one after the other are the front of the list. -/
theorem flatten_map_take_drop {β : Type} (list : List β) (count length : Nat) :
    ((List.range count).map fun part => (list.drop (part * length)).take length).flatten
      = list.take (count * length) := by
  induction count with
  | zero => simp
  | succ count ih =>
    rw [List.range_succ, List.map_append, List.flatten_append, ih, Nat.succ_mul, List.take_add]
    simp

/-- Parts of the length that is rounded up are enough. -/
theorem le_mul_length {count : Nat} (positive : 0 < count) (n : Nat) :
    n ≤ count * ((n + count - 1) / count) := by
  have rest := Nat.mod_lt (n + count - 1) positive
  have whole := Nat.div_add_mod (n + count - 1) count
  omega

/-- The parts of the workers are all nodes in order. -/
theorem flatten_partitions (n : Nat) {workers : Nat} (positive : 0 < workers) :
    (partitions n workers).flatten = List.finRange n := by
  unfold partitions
  dsimp only
  rw [flatten_map_take_drop]
  rcases Nat.eq_zero_or_pos n with rfl | nodes
  · simp
  · have enough := le_mul_length (Nat.lt_min.2 ⟨positive, nodes⟩) n
    refine List.take_of_length_le ?_
    rw [List.length_finRange]
    exact enough

/-! ## The proposals -/

/-- The move that a node proposes. -/
def proposal (level : Level n α) (state : MoveState n α) (node : Fin n) : Option (Fin n × Fin n) :=
  let current := state.community[node]
  let target := bestCommunity level state node
  if target ≠ current && !swapsSingletons state current target then some (node, target) else none

/-- A visit adds the proposal of the node and leaves a clean table. -/
theorem visit_eq (level : Level n α) (state : MoveState n α) {p : Proposing n α}
    (clean : p.scratch.Clean) (node : Fin n) :
    (p.visit level state node).scratch.Clean
      ∧ (p.visit level state node).moves = (proposal level state node).toList ++ p.moves := by
  have best := clean.best_eq level state node
  have after := clean.best level state node
  unfold Proposing.visit proposal
  dsimp only
  rw [best]
  split
  · exact ⟨after, rfl⟩
  · exact ⟨after, rfl⟩

theorem foldl_visit (level : Level n α) (state : MoveState n α) (nodes : List (Fin n))
    {p : Proposing n α} (clean : p.scratch.Clean) :
    (nodes.foldl (Proposing.visit level state) p).scratch.Clean
      ∧ (nodes.foldl (Proposing.visit level state) p).moves.reverse
        = p.moves.reverse ++ nodes.filterMap (proposal level state) := by
  induction nodes generalizing p with
  | nil => exact ⟨clean, (List.append_nil _).symm⟩
  | cons node rest ih =>
    obtain ⟨step, moves⟩ := visit_eq level state clean node
    obtain ⟨last, collected⟩ := ih step
    refine ⟨last, ?_⟩
    rw [List.foldl_cons, collected, moves, List.filterMap_cons]
    cases proposal level state node <;> simp

theorem propose_eq (level : Level n α) (state : MoveState n α) (nodes : List (Fin n)) :
    propose level state nodes = nodes.filterMap (proposal level state) := by
  have start : (⟨.fresh, []⟩ : Proposing n α).scratch.Clean := Scratch.clean_fresh
  exact (foldl_visit level state nodes start).2

/-- All workers together propose what the nodes propose, in order. -/
theorem proposals_eq (level : Level n α) {workers : Nat} (positive : 0 < workers)
    (state : MoveState n α) :
    (partitions n workers).flatMap (propose level state)
      = (List.finRange n).filterMap (proposal level state) := by
  rw [← flatten_partitions n positive, List.filterMap_flatten, List.flatMap]
  exact congrArg List.flatten (List.map_congr_left fun part _ => propose_eq level state part)

theorem partitionedPass_congr (level : Level n α) {a b : Nat} (first : 0 < a) (second : 0 < b)
    (state : MoveState n α) : partitionedPass level a state = partitionedPass level b state := by
  unfold partitionedPass
  rw [proposals_eq level first, proposals_eq level second]

/-! ## The search -/

/-- Two searches that are bounded alike and whose passes are the same functions. -/
structure Limits.Agree (α : Type) [Scalar α] (l k : Limits) : Prop where
  iterations : l.maxIterations = k.maxIterations
  levels : l.maxLevels = k.maxLevels
  pass : ∀ {n : Nat} (level : Level n α) (state : MoveState n α), l.pass level state = k.pass level state

variable {l k : Limits}

theorem optimizeFrom_congr {level : Level n α} (pass : ∀ state, l.pass level state = k.pass level state)
    (watch : Watch) (left : Nat) (state : MoveState n α) (passes moves polls : Nat) :
    optimizeFrom l watch level left state passes moves polls
      = optimizeFrom k watch level left state passes moves polls := by
  induction left generalizing state passes moves polls with
  | zero => rfl
  | succ left ih =>
    unfold optimizeFrom
    rw [pass]
    split
    · rfl
    · dsimp only
      split
      · rfl
      · exact ih _ _ _ _

theorem optimize_congr {level : Level n α} (iterations : l.maxIterations = k.maxIterations)
    (pass : ∀ state, l.pass level state = k.pass level state) (watch : Watch) (polls : Nat) :
    optimize l watch polls level = optimize k watch polls level := by
  unfold optimize
  rw [iterations]
  exact optimizeFrom_congr pass watch _ _ _ _ _

theorem Climb.run_congr (same : l.Agree α k) (watch : Watch) (left : Nat) {m : Nat}
    (c : Climb n m α) : c.run l watch left = c.run k watch left := by
  induction left generalizing m with
  | zero => rfl
  | succ left ih =>
    have next : ∀ levelRun : LevelRun m α, c.next l levelRun = c.next k levelRun := by
      intro levelRun
      unfold Climb.next
      rw [same.levels]
    unfold Climb.run
    rw [optimize_congr same.iterations (same.pass c.level)]
    dsimp only
    rw [next]
    split
    · rfl
    · split
      · exact ih _
      · rfl

/-- A search has the same report with any two numbers of workers. The parts of the workers are all nodes in
order, and a node has the same best community whatever nodes the worker has seen before it. -/
theorem detect_independent_of_workers {a b : Nat} (first : 0 < a) (second : 0 < b) :
    (∀ (g : Graph α) (settings : CommunitySettings) (watch : Watch),
      detect g settings (some a) watch = detect g settings (some b) watch)
    ∧ (∀ n : Nat, (partitions n a).flatten = List.finRange n)
    ∧ ∀ (n : Nat) (level : Level n α) (state : MoveState n α) (earlier : List (Fin n)) (node : Fin n),
      let before := earlier.foldl (Proposing.visit level state) { scratch := .fresh, moves := [] }
      (before.scratch.best level state node).1 = (Scratch.fresh.best level state node).1 := by
  refine ⟨?_, fun n => flatten_partitions n first, ?_⟩
  · intro g settings watch
    have same : Limits.Agree α ⟨settings.maxIterations, settings.maxLevels, some a⟩
        ⟨settings.maxIterations, settings.maxLevels, some b⟩ :=
      ⟨rfl, rfl, fun level state => partitionedPass_congr level first second state⟩
    exact Climb.run_congr same watch settings.maxLevels _
  · intro n level state earlier node
    have start : (⟨.fresh, []⟩ : Proposing n α).scratch.Clean := Scratch.clean_fresh
    exact (foldl_visit level state earlier start).1.best_eq level state node

/-- One worker and three workers find the same communities of the junctions, also when they are stopped. -/
theorem detect_one_three : ∃ g : Graph Rat,
    Loading.loadInto .dense Loading.fiveByDefault Loading.junctions = .ok g ∧ 0 < 1 ∧ 0 < 3
      ∧ detect g { weighted := true } (some 1) (.budget 2)
        = detect g { weighted := true } (some 3) (.budget 2) := by
  obtain ⟨g, loaded, -⟩ := Loading.exists_load_junctions .dense
  exact ⟨g, loaded, by decide, by decide,
    (detect_independent_of_workers (by decide) (by decide)).1 g _ _⟩

end NetworkAnalysis.Community
