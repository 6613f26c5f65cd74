import NetworkAnalysis.Proofs.Double.Rounding
import NetworkAnalysis.Proofs.ShortestPath.TargetCost
import NetworkAnalysis.Proofs.ShortestPath.Ties

/-!
# Distances in rounded arithmetic

The sum of weights along a route is rounded after every step, and so two routes of the same exact length may differ in
cost. What makes a search find the cheapest of them all the same is that rounding keeps the order of sums: a route is
not made cheaper by a dearer beginning (`MonotoneCosts`). Along a route whose cost stays below what counts as
unreachable, one node after the other is settled at no more than the cost so far (`Search.Formed.settles`), and what a
search that ends early has settled is what the search for all nodes settles.
-/

namespace NetworkAnalysis

open Scalar

/-- Costs that keep their order when the same weight is added to them. -/
class MonotoneCosts (α : Type) [Scalar α] : Prop extends GrowingCosts α where
  /-- A sum does not come earlier in the frontier for a cost that comes later. -/
  add_atMost_add : ∀ {cost cost' weight : α}, IsCost cost → IsCost cost' → zero ≤ weight → AtMost cost cost' →
    AtMost (cost + weight) (cost' + weight)

instance (priority := low) CostLaws.monotoneCosts {α : Type} [Scalar α] [CostLaws α] : MonotoneCosts α where
  add_atMost_add _ _ _ less := atMost_iff.2 (add_le_add_right _ (atMost_iff.1 less))

instance : MonotoneCosts Float where
  add_atMost_add := by
    intro cost cost' weight first second nonnegative less
    obtain ⟨-, number, low⟩ := Double.le_iff.1 nonnegative
    rw [Double.orderKey_zero] at low
    have := Double.isCost_iff.1 first
    have := Double.isCost_iff.1 second
    exact Double.atMost_iff.2
      (Double.orderKey_add_le_add (by omega) (Double.atMost_iff.1 less) (by omega) (by omega) number)

theorem Scalar.AtMost.trans_below {α : Type} [Scalar α] [OrderedCosts α] {a b c : α} (first : AtMost a b)
    (second : Below b c) : Below a c :=
  Std.TransCmp.lt_of_isLE_of_lt first second

/-! ## Distances along a network -/

namespace Network

variable {n : Nat} {α : Type} [Scalar α]

/-- A cost is the distance of a node: some route to the node costs as much, and none costs less. -/
structure Distance (steps : Network n α) (source node : Fin n) (cost : α) : Prop where
  route : ∃ nodes, steps.Route source node nodes cost
  least : ∀ nodes other, steps.Route source node nodes other → cost ≤ other

/-- A node is in reach if the cost of some route to it stays below what counts as unreachable. -/
def InReach (steps : Network n α) (source node : Fin n) : Prop :=
  ∃ nodes cost, steps.Route source node nodes cost ∧ cost < unreachable

theorem Route.isCost [GrowingCosts α] {steps : Network n α} {source node : Fin n} {nodes : List (Fin n)} {cost : α}
    (nonnegative : ∀ node, ∀ step ∈ steps node, zero ≤ step.2) (route : steps.Route source node nodes cost) :
    IsCost cost := by
  induction route with
  | start => exact IsCost.zero
  | step _ leads ih => exact ih.add (nonnegative _ _ leads)

end Network

/-! ## Searches for all nodes -/

namespace ShortestPath

variable {n : Nat} {α : Type} [Scalar α] [MonotoneCosts α] {steps : Network n α} {source : Fin n}

namespace Search

variable {entries : List (Candidate n α)} {s : Search n α} {node : Fin n} {nodes : List (Fin n)} {cost : α}

omit [MonotoneCosts α] in
/-- When no entry is left, every node that has been reached is settled. -/
theorem Formed.settled_of_reached (h : s.Formed steps source entries) (empty : s.tree.frontier.toList = [])
    (found : s.tree.Reached source node) : s.settled[node] = true := by
  by_contra open'
  obtain ⟨candidate, there, -⟩ := h.entered.waiting node (Bool.eq_false_iff.2 open') found
  rw [empty] at there
  cases there

section All

variable (h : s.Formed steps source entries)
  (ranked : s.tree.Ranked steps steps s.settled s.order.toList entries)
  (empty : s.tree.frontier.toList = []) (nonnegative : ∀ node, ∀ step ∈ steps node, zero ≤ step.2)

include h ranked empty nonnegative

/-- The nodes of a route that stays below what counts as unreachable are settled, and none of them is dearer than the
route up to it. -/
theorem Formed.settles (route : steps.Route source node nodes cost) (below : Below cost unreachable) :
    s.settled[node] = true ∧ AtMost s.tree.costs[node] cost := by
  induction route with
  | start =>
    refine ⟨h.settled_of_reached empty (.inl rfl), ?_⟩
    rw [h.formed.sourceCost]
    exact AtMost.refl _
  | @step node next nodes cost weight route leads ih =>
    have light := nonnegative node _ leads
    have isCost := route.isCost nonnegative
    obtain ⟨done, cheap⟩ := ih ((GrowingCosts.atMost_add isCost light).trans_below below)
    have enough : AtMost s.tree.costs[next] (cost + weight) :=
      (ranked.relaxed node done _ leads).trans
        (MonotoneCosts.add_atMost_add (ranked.isCost node) isCost light cheap)
    refine ⟨h.settled_of_reached empty ?_, enough⟩
    by_contra apart
    exact (enough.trans_below below).ne (h.formed.unreached next apart)

/-- When no entry is left, the cost of a settled node is its distance. -/
theorem Formed.distance (done : s.settled[node] = true) : steps.Distance source node s.tree.costs[node] := by
  constructor
  case route =>
    obtain ⟨nodes, back, -⟩ := h.formed.trail node done
    exact ⟨nodes, h.formed.route back⟩
  case least =>
    intro nodes other route
    refine GrowingCosts.le_of_atMost (ranked.isCost node) (route.isCost nonnegative) ?_
    by_cases below : Below other unreachable
    · exact (h.settles ranked empty nonnegative route below).2
    · exact (h.formed.below_of_settled done).atMost.trans (not_below.1 below)

end All

end Search

/-! ## Results -/

/-- What is said about the settled nodes is final. -/
structure ShortestPaths.Final (steps : Network n α) (p : ShortestPaths n α) : Prop where
  /-- The distance of a settled node is right. -/
  distance : ∀ v : Fin n, p.isSettled v = true → steps.Distance p.source v (p.distance v)
  /-- It stays below what counts as unreachable. -/
  below : ∀ v : Fin n, p.isSettled v = true → p.distance v < unreachable
  /-- Nothing comes before the source. -/
  root : p.predecessor p.source = none
  /-- A settled node comes after another one, and a step between the two makes up the difference. -/
  hop : ∀ v : Fin n, p.isSettled v = true → v ≠ p.source →
    ∃ u, p.predecessor v = some u ∧ p.isSettled u = true
      ∧ ∃ weight, (v, weight) ∈ steps u ∧ p.distance v = p.distance u + weight
  /-- Only a settled node has a path. -/
  path : ∀ v : Fin n, (p.pathTo v).nodes = [] ↔ p.isSettled v = false

omit [MonotoneCosts α] in
/-- There is a path to the settled nodes and to no others. -/
theorem ShortestPaths.nodes_pathTo_eq_nil {settled : Table n Bool} {order : List (Fin n)} {p : ShortestPaths n α}
    {t : Tree n α} (formed : t.Formed steps source settled order) (nodup : order.Nodup)
    (predecessors : p.predecessors = t.predecessors) (same : p.settled = settled) (v : Fin n) :
    (p.pathTo v).nodes = [] ↔ p.isSettled v = false := by
  rw [pathTo_val, isSettled_val, pathToNode, same, predecessors]
  split
  · next done =>
    obtain ⟨nodes, back, inOrder⟩ := formed.trail v done
    have nonempty := List.length_pos_iff.1 back.length_pos
    rw [chain_eq_of_nodup formed.sourceRoot back (nodup.sublist inOrder)]
    simp [nonempty, done]
  · next open' => exact ⟨fun _ => Bool.eq_false_iff.2 open', fun _ => rfl⟩

/-- A node that a search has settled has its distance, however the search ends. A search that was not stopped has
settled its target if the target is in reach. -/
theorem search_final (nonnegative : ∀ node, ∀ step ∈ steps node, zero ≤ step.2) (target : Option (Fin n))
    (watch : Watch) :
    let report := search steps source target watch
    report.value.Final steps
      ∧ (report.completed = true → ∀ t, target = some t →
        (report.value.isSettled t = true ↔ steps.InReach source t)) := by
  intro report
  obtain ⟨r, reached, empty, ran⟩ := Search.exists_reaches_all steps source
  have all := Search.formed_of_reaches reached
  have ranked := reached.ranked nonnegative
  have settles : ∀ v : Fin n, (search steps source none .always).value.isSettled v = r.search.settled[v] := by
    intro v
    rw [ShortestPaths.isSettled_val, ← ran]
    rfl
  have begins := begins_search steps source target watch
  obtain ⟨r', reached', stops⟩ := Search.exists_stops_start steps source target watch
  obtain ⟨traced, formed, -⟩ := (Search.formed_of_reaches reached').of_stops stops
  have distance : ∀ v : Fin n, report.value.isSettled v = true →
      steps.Distance source v (report.value.distance v) := by
    intro v done
    obtain ⟨done', same, -⟩ := begins.final v done
    rw [settles] at done'
    rw [same, ShortestPaths.distance_val]
    have full := all.distance ranked empty nonnegative done'
    rwa [← ran] at full
  have below : ∀ v : Fin n, report.value.isSettled v = true → report.value.distance v < unreachable := by
    intro v done
    obtain ⟨nodes, route⟩ := (distance v done).route
    refine GrowingCosts.lt_of_below (route.isCost nonnegative) IsCost.unreachable ?_
    rw [ShortestPaths.isSettled_val] at done
    rw [ShortestPaths.distance_val]
    exact formed.below_of_settled done
  refine ⟨⟨distance, below, ?root, ?hop, ?path⟩, fun completed t asked => ⟨fun done => ?_, ?_⟩⟩
  case root =>
    rw [ShortestPaths.predecessor_val]
    exact formed.sourceRoot
  case hop =>
    intro v done notSource
    rw [ShortestPaths.isSettled_val] at done
    obtain ⟨u, link, -⟩ := formed.exists_predecessor done notSource
    obtain ⟨done', weight, leads, -, sum⟩ := formed.hop v u link
    refine ⟨u, by rw [ShortestPaths.predecessor_val]; exact link, ?_, weight, leads, ?_⟩
    · rwa [ShortestPaths.isSettled_val]
    · rw [ShortestPaths.distance_val, ShortestPaths.distance_val]
      exact sum
  case path => exact ShortestPaths.nodes_pathTo_eq_nil formed traced.nodup rfl rfl
  · obtain ⟨nodes, route⟩ := (distance t done).route
    exact ⟨nodes, _, route, below t done⟩
  · rintro ⟨nodes, cost, route, light⟩
    have done := (all.settles ranked empty nonnegative route (OrderedCosts.below_of_lt light)).1
    rw [begins.target completed t asked, settles, done]

/-- The same holds of the relationships of a loaded graph. -/
theorem compute_final {g : Graph α} (loaded : g.Loaded) (nonnegative : g.NonnegativeWeights) (query : Query g.size)
    (watch : Watch) :
    let report := compute g query watch
    report.value.Final (g.legs query.direction)
      ∧ (report.completed = true → ∀ t, query.target = some t →
        (report.value.isSettled t = true ↔ (g.legs query.direction).InReach query.source t)) := by
  obtain ⟨storage, settings, origin, loaded⟩ := loaded
  have same := (Loading.stored_of_loadInto loaded).shows.steps_eq_legs query.direction
  have weights : ∀ node, ∀ step ∈ g.legs query.direction node, zero ≤ step.2 :=
    fun node step => nonnegative.le_of_mem_legs
  rw [← same] at weights ⊢
  exact search_final weights query.target watch

end ShortestPath

end NetworkAnalysis
