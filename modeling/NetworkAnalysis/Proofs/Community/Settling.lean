import NetworkAnalysis.Proofs.Community.Joins
import NetworkAnalysis.Proofs.Community.Passes

/-!
# Levels at which nothing moves

A sequential pass moves nothing exactly if every node is best off where it is, and where every node is a community of
its own that is a matter of pairs of nodes: none of them gains more than the slack by a move to a node that it is
joined with (`Level.Settled`). Neither the order of the entries nor how many of them there are for one node matters,
so that of two quotients by the same classes one is settled if the other one is, and joins all that it joins.
-/

namespace NetworkAnalysis.Community

variable {n m : Nat}

/-! ## Candidates -/

namespace Scratch

/-- The comparison ends where it starts exactly if no candidate is better than the start. -/
theorem foldl_better_eq_start_iff (s : Scratch n Rat) (total : Table n Rat) (degree whole : Rat) {slack : Rat}
    (nonnegative : 0 ≤ slack) {candidates : List (Fin n)} {start : Fin n × Rat}
    (others : ∀ c ∈ candidates, c ≠ start.1) :
    (candidates.foldl (s.better total degree whole slack) start).1 = start.1
      ↔ ∀ c ∈ candidates, gain s.weight[c] total[c] degree whole ≤ start.2 + slack := by
  induction candidates with
  | nil => simp
  | cons candidate rest ih =>
    obtain ⟨first, others⟩ := List.forall_mem_cons.1 others
    rw [List.foldl_cons, List.forall_mem_cons]
    by_cases improves : start.2 + slack < gain s.weight[candidate] total[candidate] degree whole
    · have step : s.better total degree whole slack start candidate
          = (candidate, gain s.weight[candidate] total[candidate] degree whole) := if_pos improves
      have later := s.foldl_better total degree whole nonnegative rest
        (candidate, gain s.weight[candidate] total[candidate] degree whole)
      rw [step]
      -- The start is no candidate, so that the comparison does not come back to it.
      refine iff_of_false (fun back => ?_) fun both => not_lt.2 both.1 improves
      rcases later with same | ⟨member, -, -⟩
      · rw [same] at back
        exact first back
      · exact others _ member back
    · have step : s.better total degree whole slack start candidate = start := if_neg improves
      rw [step, ih others]
      exact (and_iff_right (not_lt.1 improves)).symm

/-- A node stays in its community exactly if none of the communities around it gains more than the slack. -/
theorem choose_eq_iff (s : Scratch n Rat) {level : Level n Rat} {state : MoveState n Rat} {node : Fin n}
    (nonnegative : 0 ≤ level.total) :
    s.choose level state node = state.community[node]
      ↔ ∀ c ∈ s.touched, c ≠ state.community[node] →
        gain s.weight[c] state.total[c] level.degrees[node] level.total
          ≤ gain s.weight[state.community[node]] (state.total[state.community[node]] - level.degrees[node])
              level.degrees[node] level.total + Scalar.slack * level.total := by
  refine (foldl_better_eq_start_iff s _ _ _ (mul_nonneg slack_nonneg nonnegative) fun c member =>
    of_decide_eq_true (List.mem_filter.1 member).2).trans ?_
  simp only [List.mem_filter, Array.mem_toList_iff, decide_eq_true_eq, and_imp]

end Scratch

/-! ## Single nodes -/

namespace Level

/-- No node gains more than the slack by a move to a node that it is joined with. -/
def Settled (level : Level n Rat) : Prop :=
  level.total ≤ 0 ∨ ∀ u v : Fin n, level.Joins u v → v ≠ u →
    level.weight u v - level.degrees[v] * level.degrees[u] / level.total ≤ Scalar.slack * level.total

/-- Two nodes that are joined and would gain more than the slack keep a level from being settled. -/
theorem not_settled {level : Level n Rat} {u v : Fin n} (positive : 0 < level.total) (other : v ≠ u)
    (shared : level.weight u v ≠ 0)
    (gains : Scalar.slack * level.total < level.weight u v - level.degrees[v] * level.degrees[u] / level.total) :
    ¬ level.Settled := by
  have joined : level.Joins u v := by
    by_contra apart
    have nothing := weightTo_eq_zero fun entry inside same => apart ⟨entry, inside, same⟩
    rw [weight, if_neg other.symm, nothing, add_zero] at shared
    exact shared rfl
  rintro (empty | small)
  · exact not_lt.2 empty positive
  · exact not_lt.2 (small u v joined other) gains

/-- Single nodes stay where they are exactly if the level is settled. -/
theorem settled_iff {level : Level n Rat} (loopless : ∀ u : Fin n, ∀ entry ∈ level.rows[u], entry.1 ≠ u) :
    level.Settled
      ↔ ∀ u : Fin n, bestCommunity level (.singletons level) u = (MoveState.singletons level).community[u] := by
  have itself : ∀ u : Fin n, (MoveState.singletons level).community[u] = u := fun u => Table.getElem_ofFn id u
  by_cases empty : level.total ≤ 0
  · exact iff_of_true (.inl empty) fun u => bestCommunity_of_empty empty _ u
  have positive : 0 < level.total := not_le.1 empty
  rw [Settled, or_iff_right empty]
  refine forall_congr' fun u => ?_
  have weights : ∀ c : Fin n,
      (Scratch.fresh.collect (MoveState.singletons level).community level.rows[u]).weight[c]
        = weightTo level.rows[u] c := by
    intro c
    simp only [Scratch.weight_collect, itself, Finset.sum_ite_eq', Finset.mem_univ, if_true]
  have candidate : ∀ c : Fin n,
      c ∈ (Scratch.fresh.collect (MoveState.singletons level).community level.rows[u]).touched
        ↔ level.Joins u c := by
    intro c
    simp only [Scratch.mem_touched_collect, itself, Joins]
  have degrees : (MoveState.singletons level).total = level.degrees := rfl
  rw [bestCommunity_eq_choose empty, Scratch.choose_eq_iff _ positive.le]
  refine forall_congr' fun v => ?_
  rw [candidate]
  refine imp_congr_right fun _ => ?_
  rw [itself]
  refine imp_congr_right fun other => ?_
  rw [weights, weights, weightTo_eq_zero (loopless u), degrees, weight, if_neg (Ne.symm other), zero_add]
  simp [Scratch.gain]

/-- Of two quotients by the same classes one is settled if the other one is, and joins all that it joins. -/
theorem Settled.of_quotient {fine : Level n Rat} {place : Fin n → Fin m} {coarse coarse' : Level m Rat}
    (exact : fine.Exact) (h : fine.Quotient place coarse) (h' : fine.Quotient place coarse')
    (joins : ∀ c d, d ≠ c → coarse'.Joins c d → coarse.Joins c d) (settled : coarse.Settled) :
    coarse'.Settled := by
  unfold Settled at settled ⊢
  rw [h'.total exact, ← h.total exact]
  refine settled.imp id fun small c d joined other => ?_
  rw [h'.weight, ← h.weight, h'.degree exact, h'.degree exact, ← h.degree exact, ← h.degree exact]
  exact small c d (joins c d other joined) other

end Level

/-! ## Passes -/

section Passes

variable {α : Type} [Scalar α] {level : Level n α}

theorem Pass.moves_le_visit (level : Level n α) (pass : Pass n α) (node : Fin n) :
    pass.moves ≤ (pass.visit level node).moves := by
  unfold Pass.visit
  dsimp only
  split
  · exact Nat.le_refl _
  · exact Nat.le_succ _

theorem Pass.moves_le_foldl_visit (level : Level n α) (nodes : List (Fin n)) (pass : Pass n α) :
    pass.moves ≤ (nodes.foldl (Pass.visit level) pass).moves :=
  List.foldlRecOn (motive := fun later : Pass n α => pass.moves ≤ later.moves) nodes _ (Nat.le_refl _)
    fun later above node _ => Nat.le_trans above (later.moves_le_visit level node)

/-- Visits move nothing exactly if each of the nodes is best off in its community, as the communities are at the
start. -/
theorem Pass.foldl_visit_moves_eq_iff (level : Level n α) (nodes : List (Fin n)) {pass : Pass n α}
    (clean : pass.scratch.Clean) :
    (nodes.foldl (Pass.visit level) pass).moves = pass.moves
      ↔ ∀ u ∈ nodes, bestCommunity level pass.state u = pass.state.community[u] := by
  induction nodes generalizing pass with
  | nil => exact iff_of_true rfl nofun
  | cons node rest ih =>
    rw [List.foldl_cons, List.forall_mem_cons]
    by_cases stays : bestCommunity level pass.state node = pass.state.community[node]
    · rw [Pass.visit_of_stays clean stays, and_iff_right stays]
      exact ih (clean.best level pass.state node)
    · have moved : (pass.visit level node).moves = pass.moves + 1 := by rw [Pass.visit_of_leaves clean stays]
      have later := Pass.moves_le_foldl_visit level rest (pass.visit level node)
      have more : (rest.foldl (Pass.visit level) (pass.visit level node)).moves ≠ pass.moves := by omega
      exact iff_of_false more fun all => stays all.1

/-- A sequential pass moves nothing exactly if each node is best off in its community. -/
theorem sequentialPass_moves_eq_zero_iff (level : Level n α) (s : MoveState n α) :
    (sequentialPass level s).2 = 0 ↔ ∀ u : Fin n, bestCommunity level s u = s.community[u] := by
  have clean : (⟨s, .fresh, 0⟩ : Pass n α).scratch.Clean := Scratch.clean_fresh
  have visits := Pass.foldl_visit_moves_eq_iff level (List.finRange n) clean
  simp only [List.mem_finRange, forall_const] at visits
  exact visits

variable {limits : Limits} {watch : Watch}

theorem moves_le_optimizeFrom (limits : Limits) (watch : Watch) (level : Level n α) (left : Nat)
    (state : MoveState n α) (passes moves polls : Nat) :
    moves ≤ (optimizeFrom limits watch level left state passes moves polls).moves := by
  induction left generalizing state passes moves polls with
  | zero => exact Nat.le_refl _
  | succ left ih =>
    unfold optimizeFrom
    split
    · exact Nat.le_refl _
    · dsimp only
      split
      · exact Nat.le_refl _
      · exact Nat.le_trans (Nat.le_add_right _ _) (ih _ _ _ _)

/-- Where all passes of a level have moved nothing, the first one has moved nothing. -/
theorem pass_of_optimize (allowed : limits.maxIterations ≠ 0) {polls : Nat}
    (still : (optimize limits watch polls level).moves = 0)
    (completed : (optimize limits watch polls level).completed = true) :
    (limits.pass level (.singletons level)).2 = 0 := by
  obtain ⟨left, more⟩ := Nat.exists_eq_succ_of_ne_zero allowed
  unfold optimize at still completed
  rw [more] at still completed
  unfold optimizeFrom at still completed
  split at completed
  · cases completed
  · next goes =>
    rw [if_neg goes] at still
    dsimp only at still
    by_contra moved
    rw [if_neg moved] at still
    have later := moves_le_optimizeFrom limits watch level left (limits.pass level (.singletons level)).1 1
      (0 + (limits.pass level (.singletons level)).2) (polls + 1)
    rw [still] at later
    omega

/-- Where the first pass moves nothing, nothing moves at the level, also if it is stopped. -/
theorem optimize_of_pass (still : (limits.pass level (.singletons level)).2 = 0) (watch : Watch) (polls : Nat) :
    (optimize limits watch polls level).moves = 0 := by
  unfold optimize
  cases limits.maxIterations with
  | zero => rfl
  | succ left =>
    unfold optimizeFrom
    split
    · rfl
    · dsimp only
      rw [if_pos still]

end Passes

/-- The first sequential pass of a level moves nothing exactly if the level is settled. -/
theorem pass_singletons_eq_zero_iff {level : Level n Rat}
    (loopless : ∀ u : Fin n, ∀ entry ∈ level.rows[u], entry.1 ≠ u) {limits : Limits}
    (sequential : limits.workers = none) :
    (limits.pass level (.singletons level)).2 = 0 ↔ level.Settled := by
  unfold Limits.pass
  rw [sequential, Level.settled_iff loopless]
  exact sequentialPass_moves_eq_zero_iff level _

end NetworkAnalysis.Community
