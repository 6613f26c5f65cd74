import NetworkAnalysis.Proofs.Community.Joins
import NetworkAnalysis.Proofs.Community.Passes
import NetworkAnalysis.Proofs.Community.Workers

/-!
# Communities spread from neighbour to neighbour

Whatever the weights are, a node leaves its community only for the community of a node that its row has an entry for.
The passes differ in the state in which that node is asked for its community: in a sequential pass it is the state
after the moves so far, in a partitioned one the state at the start of the pass, although all of the members that a
community has then may be on their way to other ones. What a node may have as its community, if it may have whatever
the nodes around it may have, it still has after a pass of either kind (`pass_spreads`).
-/

namespace NetworkAnalysis.Community

variable {n : Nat} {α : Type} [Scalar α] {level : Level n α}

/-! ## One node -/

/-- What comes out of the comparison is the start or a candidate. -/
theorem Scratch.foldl_better_mem (s : Scratch n α) (total : Table n α) (degree whole slack : α)
    (candidates : List (Fin n)) (start : Fin n × α) :
    (candidates.foldl (s.better total degree whole slack) start).1 = start.1
      ∨ (candidates.foldl (s.better total degree whole slack) start).1 ∈ candidates := by
  induction candidates generalizing start with
  | nil => exact .inl rfl
  | cons candidate rest ih =>
    have first : (s.better total degree whole slack start candidate).1 = start.1
        ∨ (s.better total degree whole slack start candidate).1 = candidate := by
      unfold better
      dsimp only
      split
      · exact .inr rfl
      · exact .inl rfl
    rw [List.foldl_cons]
    rcases ih (s.better total degree whole slack start candidate) with same | later
    · rw [same]
      rcases first with kept | taken
      · exact .inl kept
      · rw [taken]
        exact .inr List.mem_cons_self
    · exact .inr (List.mem_cons_of_mem _ later)

/-- A node leaves its community only for that of a node around it. -/
theorem exists_of_leaves {s : MoveState n α} {node : Fin n}
    (leaves : bestCommunity level s node ≠ s.community[node]) :
    ∃ v, level.Joins node v ∧ s.community[v] = bestCommunity level s node := by
  unfold bestCommunity Scratch.best at leaves ⊢
  split at leaves
  · exact absurd rfl leaves
  · next heavy =>
    rw [if_neg heavy]
    let collected := Scratch.fresh.collect s.community level.rows[node]
    have compared := collected.foldl_better_mem s.total level.degrees[node] level.total (Scalar.slack * level.total)
      (collected.touched.toList.filter fun c => c ≠ s.community[node])
      (s.community[node], Scratch.gain collected.weight[s.community[node]]
        (s.total[s.community[node]] - level.degrees[node]) level.degrees[node] level.total)
    rcases compared with same | member
    · exact absurd same leaves
    · have touched := Array.mem_toList_iff.1 (List.mem_filter.1 member).1
      obtain ⟨entry, inside, here⟩ := (Scratch.mem_touched_collect _ _ _).1 touched
      exact ⟨entry.1, ⟨entry, inside, rfl⟩, here⟩

theorem MoveState.community_relocate (s : MoveState n α) (node target : Fin n) (degree : α) (u : Fin n) :
    (s.relocate node target degree).community[u] = if node = u then target else s.community[u] :=
  Table.getElem_set _ _ _ _

/-! ## Partitioned passes -/

theorem eq_of_proposal {s : MoveState n α} {node : Fin n} {move : Fin n × Fin n}
    (proposed : proposal level s node = some move) :
    move = (node, bestCommunity level s node) ∧ bestCommunity level s node ≠ s.community[node]
      ∧ swapsSingletons s s.community[node] (bestCommunity level s node) = false := by
  unfold proposal at proposed
  dsimp only at proposed
  split at proposed
  · next goes =>
    simp only [Bool.and_eq_true, decide_eq_true_eq, Bool.not_eq_true'] at goes
    exact ⟨(Option.some.inj proposed).symm, goes⟩
  · cases proposed

/-- What the parts propose is what the nodes propose. -/
theorem proposal_of_mem {workers : Nat} {s : MoveState n α} {move : Fin n × Fin n}
    (member : move ∈ (partitions n workers).flatMap (propose level s)) : proposal level s move.1 = some move := by
  obtain ⟨part, -, inside⟩ := List.mem_flatMap.1 member
  rw [propose_eq] at inside
  obtain ⟨node, -, here⟩ := List.mem_filterMap.1 inside
  have itself : move.1 = node := congrArg Prod.fst (eq_of_proposal here).1
  rw [itself]
  exact here

/-- A partitioned pass leaves the state as it was, or carries out moves that nodes propose. -/
theorem partitionedPass_cases (level : Level n α) (workers : Nat) (s : MoveState n α) :
    partitionedPass level workers s = (s, 0)
      ∨ ∃ moves : List (Fin n × Fin n), moves ≠ []
        ∧ (∀ move ∈ moves, proposal level s move.1 = some move)
        ∧ partitionedPass level workers s = (moves.foldl (carryOut level) s, moves.length) := by
  unfold partitionedPass
  dsimp only
  split
  · exact .inl rfl
  · next proposes =>
    split
    · exact .inl rfl
    · exact .inr ⟨_, fun idle => proposes (List.isEmpty_iff.2 idle), fun _ => proposal_of_mem, rfl⟩

/-- Proposed moves take a node to a community that is proposed for it, or leave it where it is. -/
theorem community_carriedOut (level : Level n α) (moves : List (Fin n × Fin n)) (s : MoveState n α) (u : Fin n) :
    ((∀ move ∈ moves, move.1 ≠ u) ∧ (moves.foldl (carryOut level) s).community[u] = s.community[u])
      ∨ ∃ move ∈ moves, move.1 = u ∧ (moves.foldl (carryOut level) s).community[u] = move.2 := by
  induction moves generalizing s with
  | nil => exact .inl ⟨nofun, rfl⟩
  | cons move rest ih =>
    have moved : (carryOut level s move).community[u] = if move.1 = u then move.2 else s.community[u] :=
      s.community_relocate _ _ _ u
    rw [List.foldl_cons]
    rcases ih (carryOut level s move) with ⟨others, kept⟩ | ⟨later, member, here, there⟩
    · rw [kept, moved]
      by_cases here : move.1 = u
      · rw [if_pos here]
        exact .inr ⟨move, List.mem_cons_self, here, rfl⟩
      · rw [if_neg here]
        exact .inl ⟨List.forall_mem_cons.2 ⟨here, others⟩, rfl⟩
    · exact .inr ⟨later, List.mem_cons_of_mem _ member, here, there⟩

/-! ## Either kind of pass -/

/-- What a node may have as its community if the nodes around it may have it, it has after a pass. -/
theorem pass_spreads {P : (node community : Fin n) → Prop}
    (along : ∀ u v c, level.Joins u v → P v c → P u c) (limits : Limits) {s : MoveState n α}
    (holds : ∀ u : Fin n, P u s.community[u]) :
    ∀ u : Fin n, P u (limits.pass level s).1.community[u] := by
  have best : ∀ t : MoveState n α, (∀ u : Fin n, P u t.community[u]) → ∀ node : Fin n,
      bestCommunity level t node ≠ t.community[node] → P node (bestCommunity level t node) := by
    intro t given node leaves
    obtain ⟨v, joined, here⟩ := exists_of_leaves leaves
    exact along node v _ joined (here ▸ given v)
  unfold Limits.pass
  split
  · refine sequentialPass_induct (P := fun t _ => ∀ u : Fin n, P u t.community[u]) holds ?_
    intro t _ node given leaves u
    rw [t.community_relocate]
    split
    · next here => exact here ▸ best t given node leaves
    · exact given u
  · next workers _ =>
    rcases partitionedPass_cases level workers s with same | ⟨moves, -, proposed, carried⟩
    · rw [same]
      exact holds
    · intro u
      rw [carried]
      rcases community_carriedOut level moves s u with ⟨-, kept⟩ | ⟨move, member, here, there⟩
      · exact kept ▸ holds u
      -- The target was the community of a neighbour before the pass, whether or not it still is.
      · obtain ⟨target, leaves, -⟩ := eq_of_proposal (proposed move member)
        have taken : move.2 = bestCommunity level s move.1 := congrArg Prod.snd target
        rw [there, taken, ← here]
        exact best s holds move.1 leaves

end NetworkAnalysis.Community
