import Mathlib.Data.Fintype.Card
import NetworkAnalysis.Proofs.LoadSuccess
import NetworkAnalysis.Proofs.ShortestPath.Invariant
import NetworkAnalysis.ShortestPath.Paths

/-!
# Shortest paths are shortest

A search that is never told to stop finds a cheapest route to every node, or to its target. A route that
leaves the settled nodes does so at a node that waits at no more than the cost of the route (`Sound.cut`):
once no node waits, every node with a route is settled, and when a node is settled before, no node that
waits is cheaper.
-/

namespace NetworkAnalysis.ShortestPath

variable {n : Nat} {α : Type} [Scalar α]

/-! ## Paths along predecessors -/

/-- Going back along the predecessors collects the whole way, if it is not too long. -/
theorem ShortestPaths.chain_eq {predecessors : Table n (Option (Fin n))} {source node : Fin n}
    {nodes : List (Fin n)} (root : predecessors[source] = none)
    (back : Back predecessors source node nodes) {bound : Nat} (short : nodes.length ≤ bound + 1)
    (after : List (Fin n)) : chain predecessors bound node after = nodes ++ after := by
  induction back generalizing bound after with
  | source =>
    cases bound with
    | zero => rfl
    | succ bound => simp [chain, root]
  | @step node previous nodes found back ih =>
    rw [List.length_append, List.length_singleton] at short
    obtain ⟨bound, rfl⟩ : ∃ less, bound = less + 1 :=
      ⟨bound - 1, by have := back.length_pos; omega⟩
    rw [chain, found]
    show chain predecessors bound previous (node :: after) = nodes ++ [node] ++ after
    rw [ih (by omega), List.append_assoc]
    rfl

/-- Without repetitions, `n` steps back are enough. -/
theorem ShortestPaths.chain_eq_of_nodup {predecessors : Table n (Option (Fin n))} {source node : Fin n}
    {nodes : List (Fin n)} (root : predecessors[source] = none)
    (back : Back predecessors source node nodes) (distinct : nodes.Nodup) :
    chain predecessors n node [] = nodes := by
  have few : nodes.length ≤ n := by
    simpa using List.Nodup.length_le_card distinct
  rw [chain_eq root back (Nat.le_succ_of_le few), List.append_nil]

namespace Tree

variable {steps : Network n α} {source : Fin n} {settled : Table n Bool}
  {tried : Fin n → Fin n × α → Prop} {t : Tree n α}

/-- The way back is a route that costs what the tree says. -/
theorem Sound.route (h : Sound steps source settled tried t) {node : Fin n} {nodes : List (Fin n)}
    (back : Back t.predecessors source node nodes)
    (found : ∀ x ∈ nodes, t.costs[x] < Scalar.unreachable) :
    steps.Route source node nodes t.costs[node] := by
  induction back with
  | source =>
    rw [h.sourceCost]
    exact .start
  | @step node previous nodes link back ih =>
    have other : node ≠ source := by
      rintro rfl
      rw [h.sourceRoot] at link
      cases link
    obtain ⟨previous', weight, link', -, leads, sum⟩ :=
      h.parent node other (found node (List.mem_append_right _ (List.mem_singleton_self _)))
    obtain rfl : previous = previous' := Option.some.inj (link.symm.trans link')
    rw [sum]
    exact .step (ih fun x listed => found x (List.mem_append_left _ listed)) leads

end Tree

namespace Search

variable {steps : Network n α} {source : Fin n} {s : Search n α}

/-- What a search knows in the end about a node: a cheapest route if there is one. -/
structure Solves (steps : Network n α) (source node : Fin n) (s : Search n α) : Prop where
  settles : ∀ {nodes cost}, steps.Route source node nodes cost → cost < Scalar.unreachable →
    s.settled[node] = true ∧ s.tree.costs[node] ≤ cost
  route : s.settled[node] = true → s.tree.costs[node] < Scalar.unreachable
    ∧ steps.Route source node (ShortestPaths.chain s.tree.predecessors n node []) s.tree.costs[node]
  unreached : s.settled[node] = false → s.tree.costs[node] = Scalar.unreachable

theorem Sound.route_of_settled {settled : Table n Bool} {tried : Fin n → Fin n × α → Prop}
    {t : Tree n α} (h : t.Sound steps source settled tried) {node : Fin n}
    (done : settled[node] = true) : t.costs[node] < Scalar.unreachable
      ∧ steps.Route source node (ShortestPaths.chain t.predecessors n node []) t.costs[node] := by
  obtain ⟨nodes, back, distinct, inside⟩ := h.trail node done
  refine ⟨h.reached node done, ?_⟩
  rw [ShortestPaths.chain_eq_of_nodup h.sourceRoot back distinct]
  exact h.route back fun x listed => h.reached x (inside x listed)

variable [CostLaws α]

/-- A route leads through settled nodes, or leaves them at a node that is no dearer. -/
theorem Sound.cut (h : s.Sound steps source)
    (nonnegative : ∀ node, ∀ step ∈ steps node, Scalar.zero ≤ step.2) {node : Fin n}
    {nodes : List (Fin n)} {cost : α} (route : steps.Route source node nodes cost)
    (below : cost < Scalar.unreachable) :
    (s.settled[node] = true ∧ s.tree.costs[node] ≤ cost)
      ∨ ∃ other : Fin n, s.settled[other] = false ∧ s.tree.costs[other] ≤ cost := by
  induction route with
  | start =>
    rcases done : s.settled[source] with _ | _
    · exact .inr ⟨source, done, Std.le_of_eq h.sourceCost⟩
    · exact .inl ⟨rfl, Std.le_of_eq h.sourceCost⟩
  | @step node next nodes cost weight route leads ih =>
    have farther : cost ≤ cost + weight := CostLaws.le_add cost (nonnegative node _ leads)
    rcases ih (Std.lt_of_le_of_lt farther below) with ⟨done, cheap⟩ | ⟨other, waits, cheap⟩
    · have sum : s.tree.costs[node] + weight ≤ cost + weight := CostLaws.add_le_add_right weight cheap
      have relaxed : s.tree.costs[next] ≤ cost + weight :=
        Std.le_trans (h.relaxed node _ ⟨done, leads⟩ (Std.lt_of_le_of_lt sum below)) sum
      rcases done' : s.settled[next] with _ | _
      · exact .inr ⟨next, done', relaxed⟩
      · exact .inl ⟨rfl, relaxed⟩
    · exact .inr ⟨other, waits, Std.le_trans cheap farther⟩

/-- When no node waits, everything is known about all nodes. -/
theorem Sound.solves (h : s.Sound steps source)
    (nonnegative : ∀ node, ∀ step ∈ steps node, Scalar.zero ≤ step.2)
    (popped : s.tree.frontier.pop? Candidate.before = none) (node : Fin n) :
    s.Solves steps source node := by
  have far : ∀ {other : Fin n}, s.settled[other] = false → ¬s.tree.costs[other] < Scalar.unreachable := by
    intro other waits found
    obtain ⟨candidate, listed, -⟩ := h.waiting other waits found
    rw [Heap.toList_of_pop?_eq_none popped] at listed
    cases listed
  constructor
  case settles =>
    intro nodes cost route below
    rcases h.cut nonnegative route below with settles | ⟨other, waits, cheap⟩
    · exact settles
    · exact absurd (Std.lt_of_le_of_lt cheap below) (far waits)
  case route => exact Sound.route_of_settled h
  case unreached =>
    intro waits
    exact Std.le_antisymm (h.bounded node) (Std.not_lt.1 (far waits))

/-- When a node is settled, everything is known about it. -/
theorem Sound.solves_settle (h : s.Sound steps source)
    (nonnegative : ∀ node, ∀ step ∈ steps node, Scalar.zero ≤ step.2) {candidate : Candidate n α}
    {rest : Heap (Candidate n α)}
    (popped : s.tree.frontier.pop? Candidate.before = some (candidate, rest))
    (waits : s.settled[candidate.node] = false) :
    (s.settle candidate.node rest).Solves steps source candidate.node := by
  obtain ⟨itsCost, -, least⟩ := h.cost_of_pop? popped waits
  have settled := h.settle popped waits
  constructor
  case settles =>
    intro nodes cost route below
    refine ⟨settled.here, ?_⟩
    rcases h.cut nonnegative route below with ⟨done, -⟩ | ⟨other, waits', cheap⟩
    · rw [waits] at done
      cases done
    · exact Std.le_trans (Std.le_of_eq settled.itsCost) (Std.le_trans (least other waits') cheap)
  case route => exact Sound.route_of_settled settled.toSound
  case unreached =>
    intro open'
    rw [settled.here] at open'
    cases open'

/-- A search that is never told to stop comes to its end and knows everything about all nodes it was
asked for. -/
theorem Sound.run (nonnegative : ∀ node, ∀ step ∈ steps node, Scalar.zero ≤ step.2)
    (h : s.Sound steps source) (target : Option (Fin n)) :
    (s.run steps target .always).2 = true
      ∧ ∀ node, target = none ∨ target = some node →
        (s.run steps target .always).1.Solves steps source node := by
  fun_induction Search.run steps target .always s with
  | case1 s popped => exact ⟨rfl, fun node _ => h.solves nonnegative popped node⟩
  | case2 s candidate rest popped stop => cases stop
  | case3 s candidate rest popped _ done ih => exact ih (h.skip popped done)
  | case4 s candidate rest popped _ waits settled asked =>
    refine ⟨rfl, ?_⟩
    rintro node (all | asked')
    · rw [all] at asked
      cases asked
    · obtain rfl : candidate.node = node := Option.some.inj (asked.symm.trans asked')
      exact h.solves_settle nonnegative popped (Bool.eq_false_iff.2 waits)
  | case5 s candidate rest popped _ waits settled _ ih =>
    exact ih (h.expand nonnegative popped (Bool.eq_false_iff.2 waits))

end Search

/-! ## Results -/

/-- The distance of a node, whether it is final, and the path to the node are right. -/
structure Optimal (steps : Network n α) (source node : Fin n) (distance : α) (settled : Bool)
    (path : Path n α) : Prop where
  /-- If there is a route below what counts as unreachable, the path is a cheapest one. -/
  reached : (∃ nodes cost, steps.Route source node nodes cost ∧ cost < Scalar.unreachable) →
    settled = true ∧ distance < Scalar.unreachable
      ∧ steps.Route source node path.nodes distance ∧ path.totalCost = distance
      ∧ ∀ nodes cost, steps.Route source node nodes cost → distance ≤ cost
  /-- If there is none, the node counts as unreachable. -/
  unreached : (¬∃ nodes cost, steps.Route source node nodes cost ∧ cost < Scalar.unreachable) →
    distance = Scalar.unreachable ∧ settled = false ∧ path.nodes = []

variable [CostLaws α]

theorem Search.Solves.optimal {steps : Network n α} {source node : Fin n} {s : Search n α}
    (h : s.Solves steps source node) (p : ShortestPaths n α) (costs : p.costs = s.tree.costs)
    (settled : p.settled = s.settled) (predecessors : p.predecessors = s.tree.predecessors) :
    Optimal steps source node p.costs[node] p.settled[node] (p.pathToNode node) := by
  unfold ShortestPaths.pathToNode
  rw [costs, settled, predecessors]
  constructor
  case reached =>
    rintro ⟨nodes, cost, route, below⟩
    obtain ⟨done, -⟩ := h.settles route below
    obtain ⟨found, back⟩ := h.route done
    rw [if_pos done]
    refine ⟨done, found, back, rfl, fun nodes' cost' route' => ?_⟩
    by_cases below' : cost' < Scalar.unreachable
    · exact (h.settles route' below').2
    · exact Std.le_trans (Std.le_of_lt found) (Std.not_lt.1 below')
  case unreached =>
    intro cut
    have open' : s.settled[node] = false := by
      rw [← Bool.not_eq_true]
      intro done
      obtain ⟨found, back⟩ := h.route done
      exact cut ⟨_, _, back, found⟩
    rw [open']
    exact ⟨h.unreached open', rfl, rfl⟩

omit [CostLaws α] in
theorem ShortestPaths.distance_val (p : ShortestPaths n α) (node : Fin n) :
    p.distance node = p.costs[node] := by
  simp [distance, Table.get?]

omit [Scalar α] [CostLaws α] in
theorem ShortestPaths.isSettled_val (p : ShortestPaths n α) (node : Fin n) :
    p.isSettled node = p.settled[node] := by
  simp [isSettled, Table.get?]

omit [CostLaws α] in
theorem ShortestPaths.pathTo_val (p : ShortestPaths n α) (node : Fin n) :
    p.pathTo node = p.pathToNode node :=
  dif_pos node.isLt

/-- A search that is never told to stop is right about all nodes, or about its target. -/
theorem compute_optimal {g : Graph α} (loaded : g.Loaded) (nonnegative : g.NonnegativeWeights)
    (source : Fin g.size) (direction : Direction) :
    ((compute g ⟨source, none, direction⟩ .always).completed = true
      ∧ ∀ node : Fin g.size,
        let paths := (compute g ⟨source, none, direction⟩ .always).value
        Optimal (g.legs direction) source node (paths.distance node) (paths.isSettled node)
          (paths.pathTo node))
    ∧ ∀ target : Fin g.size,
      (compute g ⟨source, some target, direction⟩ .always).completed = true
        ∧ let paths := (compute g ⟨source, some target, direction⟩ .always).value
          Optimal (g.legs direction) source target paths.totalCost (paths.isSettled target)
            paths.path := by
  obtain ⟨storage, settings, origin, loaded⟩ := loaded
  have same := (Loading.stored_of_loadInto loaded).shows.steps_eq_legs direction
  have weights : ∀ node, ∀ step ∈ g.legs direction node, Scalar.zero ≤ step.2 :=
    fun node step => nonnegative.le_of_mem_legs
  have run := Search.Sound.run weights (Search.sound_start (g.legs direction) source)
  rw [← same] at run ⊢
  refine ⟨⟨(run none).1, fun node => ?_⟩, fun target => ⟨(run (some target)).1, ?_⟩⟩
  · dsimp only
    rw [ShortestPaths.distance_val, ShortestPaths.isSettled_val, ShortestPaths.pathTo_val]
    exact ((run none).2 node (.inl rfl)).optimal _ rfl rfl rfl
  · dsimp only
    rw [ShortestPaths.isSettled_val]
    exact ((run (some target)).2 target (.inr rfl)).optimal _ rfl rfl rfl

/-- The junctions are a loaded graph without negative weights. -/
theorem compute_optimal_junctions : ∃ (g : Graph Rat) (source : Fin g.size),
    Loading.loadInto .huge Loading.fiveByDefault Loading.junctions = .ok g
      ∧ g.Loaded ∧ g.NonnegativeWeights
      ∧ ∀ node : Fin g.size,
        let paths := (compute g ⟨source, none, .both⟩ .always).value
        Optimal (g.legs .both) source node (paths.distance node) (paths.isSettled node)
          (paths.pathTo node) := by
  obtain ⟨g, loaded, labels⟩ := Loading.exists_load_junctions .huge
  have four : g.size = 4 := congrArg List.length labels
  have nonnegative : g.NonnegativeWeights :=
    (Loading.stored_of_loadInto loaded).forall_weight (Loading.nonnegative_junctions g.ids)
  have isLoaded : g.Loaded := ⟨_, _, _, loaded⟩
  have source : Fin g.size := ⟨0, by omega⟩
  exact ⟨g, source, loaded, isLoaded, nonnegative, (compute_optimal isLoaded nonnegative source .both).1.2⟩

end NetworkAnalysis.ShortestPath
