import NetworkAnalysis.Proofs.Community.Spreading
import NetworkAnalysis.Proofs.LoadSuccess

/-!
# Totals and sizes are kept up to date

The total and the size of a community are changed along with the moves and never counted anew. After any passes they
are what a count would give (`MoveState.Aggregated`), and so they are at every single move within a pass, so that the
community that a node leaves has at least this node. In a partitioned pass the moves were proposed before any of them
was carried out. They fit all the same, because no two of them are about one node.
-/

namespace NetworkAnalysis.Community

variable {n : Nat} {level : Level n Rat} {s : MoveState n Rat}

/-- The totals and the sizes are those of the nodes in each community. -/
structure MoveState.Aggregated (level : Level n Rat) (s : MoveState n Rat) : Prop where
  total : ∀ c : Fin n, s.total[c] = ∑ u : Fin n, if s.community[u] = c then level.degrees[u] else 0
  size : ∀ c : Fin n, s.size[c] = (Finset.univ.filter fun u : Fin n => s.community[u] = c).card

namespace MoveState

theorem aggregated_singletons (level : Level n Rat) : (singletons level).Aggregated level := by
  have itself : ∀ u : Fin n, (singletons level).community[u] = u := fun u => Table.getElem_ofFn id u
  constructor
  case total =>
    intro c
    simp only [itself, Finset.sum_ite_eq', Finset.mem_univ, if_true]
    rfl
  case size =>
    intro c
    have alone : (Finset.univ.filter fun u : Fin n => u = c) = {c} := by
      ext u
      simp
    simp only [itself, alone, Finset.card_singleton]
    exact Table.getElem_replicate 1 c

namespace Aggregated

theorem relocate (h : s.Aggregated level) {node target : Fin n} (other : target ≠ s.community[node]) :
    (s.relocate node target level.degrees[node]).Aggregated level := by
  constructor
  case total => exact sums_of_move add_sub_cancel_right h.total other
  case size =>
    have size : ∀ c : Fin n, s.size[c] = ∑ u : Fin n, if s.community[u] = c then 1 else 0 := by
      intro c
      rw [h.size, Finset.card_filter]
    intro c
    rw [Finset.card_filter]
    exact sums_of_move Nat.add_sub_cancel size other c

/-- The community of a node is not empty. -/
theorem size_pos (h : s.Aggregated level) (u : Fin n) : 0 < s.size[s.community[u]] := by
  have member : u ∈ Finset.univ.filter fun v : Fin n => s.community[v] = s.community[u] := by simp
  rw [h.size]
  exact Finset.card_pos.2 ⟨u, member⟩

/-- Visits keep the totals and the sizes up to date, whichever nodes have been visited. -/
theorem foldl_visit (h : s.Aggregated level) (nodes : List (Fin n)) :
    (nodes.foldl (Pass.visit level) { state := s, scratch := .fresh, moves := 0 }).state.Aggregated level := by
  refine Pass.foldl_visit_induct (P := fun t _ => t.Aggregated level) h ?_ nodes
  intro t _ node aggregated leaves
  exact aggregated.relocate leaves

/-- So do moves of different nodes that each lead to another community. -/
theorem foldl_carryOut (h : s.Aggregated level) {moves : List (Fin n × Fin n)} (once : (moves.map Prod.fst).Nodup)
    (leaves : ∀ move ∈ moves, move.2 ≠ s.community[move.1]) : (moves.foldl (carryOut level) s).Aggregated level := by
  induction moves generalizing s with
  | nil => exact h
  | cons move rest ih =>
    obtain ⟨first, once⟩ := List.nodup_cons.1 once
    obtain ⟨leaves, later⟩ := List.forall_mem_cons.1 leaves
    rw [List.foldl_cons]
    apply ih (h.relocate leaves) once
    -- A later move is about another node, which the first move has left where it was.
    intro next member
    have other : move.1 ≠ next.1 := by
      intro same
      exact first (same ▸ List.mem_map_of_mem member)
    have kept : (carryOut level s move).community[next.1] = s.community[next.1] := by
      show (s.relocate _ _ _).community[next.1] = _
      rw [s.community_relocate, if_neg other]
    have apart := later next member
    show next.2 ≠ (carryOut level s move).community[next.1]
    rw [kept]
    exact apart

end Aggregated

end MoveState

/-! ## Proposals -/

/-- All workers together propose no more than one move of a node. -/
theorem nodup_proposals (level : Level n Rat) (workers : Nat) (s : MoveState n Rat) :
    (((partitions n workers).flatMap (propose level s)).map Prod.fst).Nodup := by
  rcases Nat.eq_zero_or_pos workers with rfl | positive
  · simp [partitions]
  · rw [proposals_eq level positive, List.map_filterMap]
    refine (List.nodup_finRange n).filterMap ?_
    intro u v node first second
    obtain ⟨move, proposed, rfl⟩ := Option.map_eq_some_iff.1 first
    obtain ⟨move', proposed', same⟩ := Option.map_eq_some_iff.1 second
    have here : move.1 = u := congrArg Prod.fst (eq_of_proposal proposed).1
    have there : move'.1 = v := congrArg Prod.fst (eq_of_proposal proposed').1
    rw [← here, ← there, same]

theorem ne_of_proposal (workers : Nat) {move : Fin n × Fin n}
    (member : move ∈ (partitions n workers).flatMap (propose level s)) : move.2 ≠ s.community[move.1] := by
  obtain ⟨target, leaves, -⟩ := eq_of_proposal (proposal_of_mem member)
  have taken : move.2 = bestCommunity level s move.1 := congrArg Prod.snd target
  rw [taken]
  exact leaves

/-- When a proposed move is carried out after those before it, the node is where it was when the move was proposed. -/
theorem carried_before {moves earlier later : List (Fin n × Fin n)} {move : Fin n × Fin n}
    (once : (moves.map Prod.fst).Nodup) (cut : moves = earlier ++ move :: later) (level : Level n Rat)
    (s : MoveState n Rat) : (earlier.foldl (carryOut level) s).community[move.1] = s.community[move.1] := by
  rcases community_carriedOut level earlier s move.1 with ⟨-, kept⟩ | ⟨again, member, same, -⟩
  · exact kept
  · rw [cut, List.map_append, List.map_cons] at once
    have apart := (List.nodup_append.1 once).2.2 again.1 (List.mem_map_of_mem member) move.1 List.mem_cons_self
    exact absurd same apart

/-! ## Passes -/

/-- The states that passes of either kind lead to. -/
inductive Reachable (level : Level n Rat) : MoveState n Rat → Prop
  /-- Every node in a community of its own. -/
  | start : Reachable level (.singletons level)
  /-- A sequential pass. -/
  | sequential {s : MoveState n Rat} (before : Reachable level s) : Reachable level (sequentialPass level s).1
  /-- A partitioned pass. -/
  | partitioned {s : MoveState n Rat} (before : Reachable level s) (workers : Nat) :
    Reachable level (partitionedPass level workers s).1

theorem MoveState.Aggregated.sequentialPass (h : s.Aggregated level) : (sequentialPass level s).1.Aggregated level :=
  h.foldl_visit (List.finRange n)

theorem MoveState.Aggregated.proposed (h : s.Aggregated level) {workers : Nat} {earlier later : List (Fin n × Fin n)}
    (cut : (partitions n workers).flatMap (propose level s) = earlier ++ later) :
    (earlier.foldl (carryOut level) s).Aggregated level := by
  have once := nodup_proposals level workers s
  rw [cut, List.map_append] at once
  refine h.foldl_carryOut (List.nodup_append.1 once).1 ?_
  intro move member
  apply ne_of_proposal workers
  rw [cut]
  exact List.mem_append_left later member

theorem MoveState.Aggregated.partitionedPass (h : s.Aggregated level) (workers : Nat) :
    (partitionedPass level workers s).1.Aggregated level := by
  unfold Community.partitionedPass
  dsimp only
  split
  · exact h
  · split
    · exact h
    · exact h.proposed (List.append_nil _).symm

theorem Reachable.aggregated (h : Reachable level s) : s.Aggregated level := by
  induction h with
  | start => exact MoveState.aggregated_singletons level
  | sequential _ ih => exact ih.sequentialPass
  | partitioned _ workers ih => exact ih.partitionedPass workers

/-- The bookkeeping is exact after any passes, and before each move that a pass makes from there: no community that is
left has size zero. The parts of a partitioned pass propose one move of a node at most, to a community in which it is
not when its turn comes, and a pass that is taken back leaves the state as it was. -/
theorem aggregates_of_reachable (reachable : Reachable level s) :
    s.Aggregated level ∧ (∀ u : Fin n, (s.community[u]).val < n)
      ∧ (∀ earlier node later, List.finRange n = earlier ++ node :: later →
        let t := (earlier.foldl (Pass.visit level) { state := s, scratch := .fresh, moves := 0 }).state
        t.Aggregated level ∧ 0 < t.size[t.community[node]])
      ∧ ∀ workers : Nat,
        let moves := (partitions n workers).flatMap (propose level s)
        (moves.map Prod.fst).Nodup
          ∧ (∀ earlier move later, moves = earlier ++ move :: later →
            let t := earlier.foldl (carryOut level) s
            t.Aggregated level ∧ 0 < t.size[t.community[move.1]] ∧ t.community[move.1] = s.community[move.1]
              ∧ move.2 ≠ t.community[move.1])
          ∧ (level.modularity (moves.foldl (carryOut level) s).community + Scalar.slack
                < level.modularity s.community →
            partitionedPass level workers s = (s, 0)) := by
  have aggregated := reachable.aggregated
  refine ⟨aggregated, fun u => (s.community[u]).isLt, ?_, ?_⟩
  · intro earlier node later _
    have visited := aggregated.foldl_visit earlier
    exact ⟨visited, visited.size_pos node⟩
  · intro workers
    have once := nodup_proposals level workers s
    refine ⟨once, ?_, ?_⟩
    · intro earlier move later cut
      have carried := aggregated.proposed cut
      have where' := carried_before once cut level s
      have member : move ∈ (partitions n workers).flatMap (propose level s) := by
        rw [cut]
        exact List.mem_append_right earlier List.mem_cons_self
      refine ⟨carried, carried.size_pos move.1, where', ?_⟩
      rw [where']
      exact ne_of_proposal workers member
    · intro lower
      unfold partitionedPass
      dsimp only
      rw [if_pos lower]
      exact ite_self _

/-- Passes of both kinds among the junctions. -/
theorem aggregates_junctions : ∃ g : Graph Rat,
    Loading.loadInto .huge Loading.fiveByDefault Loading.junctions = .ok g
      ∧ let level := Level.ofGraph g true
        let s := (partitionedPass level 3 (sequentialPass level (partitionedPass level 2 (.singletons level)).1).1).1
        Reachable level s ∧ s.Aggregated level
          ∧ (((partitions g.size 2).flatMap (propose level s)).map Prod.fst).Nodup := by
  obtain ⟨g, loaded, -⟩ := Loading.exists_load_junctions .huge
  let level := Level.ofGraph g true
  have reachable : Reachable level _ := (((Reachable.start : Reachable level _).partitioned 2).sequential).partitioned 3
  obtain ⟨aggregated, -, -, proposed⟩ := aggregates_of_reachable reachable
  exact ⟨g, loaded, reachable, aggregated, (proposed 2).1⟩

end NetworkAnalysis.Community
