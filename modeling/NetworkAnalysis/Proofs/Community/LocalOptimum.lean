import NetworkAnalysis.Proofs.Community.Aggregates
import NetworkAnalysis.Proofs.Community.Levels
import NetworkAnalysis.Proofs.Community.Settling

/-!
# Sequential passes climb to a local optimum

Where the matrix of a level is symmetric and the totals are up to date, a visit leaves a node where it is or raises the
modularity by more than twice the slack. Both hold wherever a search can come to: its levels are coarse levels of the
level of a loaded graph (`SearchLevel`), and its states are reached by passes (`Reachable`). The moves of a pass add up,
and a pass without moves has found every node at its best community, so that no single move to a community around the
node would raise the modularity by more than twice the slack (`LocallyOptimal`).
-/

namespace NetworkAnalysis.Community

variable {n : Nat}

/-! ## Where a search can come to -/

/-- The levels that a search of a graph can come to. -/
inductive SearchLevel (g : Graph Rat) (weighted : Bool) : {m : Nat} → Level m Rat → Prop
  /-- The level of the graph. -/
  | base : SearchLevel g weighted (.ofGraph g weighted)
  /-- The level of the communities that passes have led to. -/
  | next {m : Nat} {level : Level m Rat} {s : MoveState m Rat} (finer : SearchLevel g weighted level)
    (reached : Reachable level s) : SearchLevel g weighted (level.coarsen (renumber s.community).community)

theorem SearchLevel.madeOf {g : Graph Rat} {weighted : Bool} {level : Level n Rat}
    (found : SearchLevel g weighted level) : MadeOf g weighted level := by
  induction found with
  | base => exact .base
  | next _ _ ih => exact ih.coarsen _

theorem SearchLevel.symmetric {g : Graph Rat} (loaded : g.Loaded) {weighted : Bool} {level : Level n Rat}
    (found : SearchLevel g weighted level) : level.Symmetric :=
  found.madeOf.symmetric loaded

/-- What the passes of a level lead to is reachable, however many there are and whoever shares them. -/
theorem reachable_optimize (limits : Limits) (watch : Watch) (polls : Nat) (level : Level n Rat) :
    Reachable level (optimize limits watch polls level).state := by
  refine optimize_induct (P := fun s _ _ => Reachable level s) .start ?_ watch polls
  intro s _ _ reached
  unfold Limits.pass
  split
  · exact reached.sequential
  · exact reached.partitioned _

/-- Every search of a graph comes to one of these levels. -/
theorem exists_searchLevel_detect (g : Graph Rat) (settings : CommunitySettings) (workers : Option Nat)
    (watch : Watch) :
    ∃ (k : Nat) (last : Climb g.size k Rat) (completed : Bool), SearchLevel g settings.weighted last.level
      ∧ detect g settings workers watch = last.report completed :=
  Climb.run_optimize_induct _ watch (P := fun c => SearchLevel g settings.weighted c.level) (fun _ found => found)
    (fun c found => found.next (reachable_optimize _ watch c.polls c.level)) settings.maxLevels _ .base

/-! ## One visit -/

section Visit

variable {level : Level n Rat} {s : MoveState n Rat}

theorem MoveState.Aggregated.exact (h : s.Aggregated level) : s.Exact level :=
  ⟨h.total⟩

theorem Pass.clean_visit {α : Type} [Scalar α] {level : Level n α} {pass : Pass n α} (clean : pass.scratch.Clean)
    (node : Fin n) : (pass.visit level node).scratch.Clean := by
  have clean' := clean.best level pass.state node
  by_cases stays : bestCommunity level pass.state node = pass.state.community[node]
  · rw [Pass.visit_of_stays clean stays]
    exact clean'
  · rw [Pass.visit_of_leaves clean stays]
    exact clean'

/-- A visit changes nothing but the table, or moves the node and raises the modularity by more than twice the slack. -/
theorem Pass.visit_climbs (symmetric : level.Symmetric) {pass : Pass n Rat} (clean : pass.scratch.Clean)
    (exact : pass.state.Exact level) (node : Fin n) :
    let after := pass.visit level node
    after.state = pass.state ∧ after.moves = pass.moves
      ∨ after.state.community[node] ≠ pass.state.community[node] ∧ after.moves = pass.moves + 1
        ∧ level.modularity pass.state.community + 2 * Scalar.slack < level.modularity after.state.community := by
  by_cases stays : bestCommunity level pass.state node = pass.state.community[node]
  · rw [Pass.visit_of_stays clean stays]
    exact .inl ⟨rfl, rfl⟩
  · rw [Pass.visit_of_leaves clean stays]
    refine .inr ⟨?_, rfl, ?_⟩
    · rw [MoveState.community_relocate, if_pos rfl]
      exact stays
    · rw [Level.modularity_eq_quality, Level.modularity_eq_quality]
      exact quality_relocate symmetric exact stays level.degrees[node]

end Visit

/-! ## Local optima -/

/-- No move of a single node to the community of a node that it is joined with raises the modularity by more than twice
the slack. -/
def LocallyOptimal (level : Level n Rat) (s : MoveState n Rat) : Prop :=
  ∀ u v : Fin n, level.Joins u v →
    level.modularity (s.community.set u s.community[v]) ≤ level.modularity s.community + 2 * Scalar.slack

section Optimum

variable {level : Level n Rat} {s : MoveState n Rat}

/-- The community of a node that is best off pulls it at most by the slack less than another one around it. -/
theorem pull_le_of_best (symmetric : level.Symmetric) (positive : 0 < level.total) (exact : s.Exact level) {u : Fin n}
    (best : bestCommunity level s u = s.community[u]) {v : Fin n} (joins : level.Joins u v)
    (other : s.community[v] ≠ s.community[u]) :
    level.pull (fun u : Fin n => s.community[u]) u s.community[v]
      ≤ level.pull (fun u : Fin n => s.community[u]) u s.community[u] + Scalar.slack := by
  rw [bestCommunity_eq_choose (not_le.2 positive)] at best
  have touched : s.community[v] ∈ (Scratch.fresh.collect s.community level.rows[u]).touched := by
    obtain ⟨entry, inside, rfl⟩ := joins
    exact (Scratch.mem_touched_collect _ _ _).2 ⟨entry, inside, rfl⟩
  have bounded := (Scratch.choose_eq_iff _ positive.le).1 best _ touched other
  rw [Scratch.gain_own symmetric positive exact, Scratch.gain_other symmetric positive exact other,
    mul_comm Scalar.slack, ← mul_add] at bounded
  exact le_of_mul_le_mul_left bounded positive

/-- Where every node is best off in its community, the communities are locally optimal. -/
theorem locallyOptimal_of_best (symmetric : level.Symmetric) (exact : s.Exact level)
    (best : ∀ u : Fin n, bestCommunity level s u = s.community[u]) : LocallyOptimal level s := by
  intro u v joins
  have slack := Scratch.slack_nonneg
  rw [Level.modularity_eq_quality, Level.modularity_eq_quality]
  by_cases empty : level.total ≤ 0
  · rw [Level.quality, Level.quality, if_pos empty, if_pos empty]
    linarith
  have positive : 0 < level.total := not_le.1 empty
  have others : ∀ w : Fin n, w ≠ u → (s.community.set u s.community[v])[w] = s.community[w] :=
    fun w other => Table.getElem_set_of_ne _ _ other.symm
  rw [Level.quality_move symmetric positive others, Table.getElem_set_self]
  by_cases own : s.community[v] = s.community[u]
  · rw [own, sub_self]
    linarith
  · have bounded := pull_le_of_best symmetric positive exact (best u) joins own
    linarith

/-- A pass moves nothing and leaves the state as it is, or its moves raise the modularity by more than twice the slack
each. -/
theorem sequentialPass_cases (symmetric : level.Symmetric) (exact : s.Exact level) :
    (sequentialPass level s).2 = 0 ∧ (sequentialPass level s).1 = s
      ∨ (sequentialPass level s).2 ≠ 0
        ∧ s.quality level + 2 * Scalar.slack * (sequentialPass level s).2
          < (sequentialPass level s).1.quality level := by
  refine (sequentialPass_induct (P := fun t moves => t.Exact level ∧ (moves = 0 ∧ t = s
    ∨ moves ≠ 0 ∧ s.quality level + 2 * Scalar.slack * moves < t.quality level)) ⟨exact, .inl ⟨rfl, rfl⟩⟩ ?_).2
  rintro t moves node ⟨exact', raised⟩ leaves
  have climbed := quality_relocate symmetric exact' leaves level.degrees[node]
  refine ⟨exact'.relocate leaves, .inr ⟨Nat.succ_ne_zero moves, ?_⟩⟩
  push_cast
  rcases raised with ⟨rfl, rfl⟩ | ⟨-, above⟩
  · simpa using climbed
  · linarith

end Optimum

/-! ## Passes -/

/-- Wherever a search can come to, each visit of a sequential pass that moves its node raises the modularity by more
than twice the slack, and the whole pass by more than that for each move. A pass that moves nothing leaves the state as
it is, and the state is locally optimal. -/
theorem sequentialPass_optimizes {g : Graph Rat} (loaded : g.Loaded) {weighted : Bool} {level : Level n Rat}
    (found : SearchLevel g weighted level) {s : MoveState n Rat} (reached : Reachable level s) :
    (∀ earlier node later, List.finRange n = earlier ++ node :: later →
        let before := earlier.foldl (Pass.visit level) { state := s, scratch := .fresh, moves := 0 }
        let after := before.visit level node
        after.state = before.state ∧ after.moves = before.moves
          ∨ after.state.community[node] ≠ before.state.community[node] ∧ after.moves = before.moves + 1
            ∧ level.modularity before.state.community + 2 * Scalar.slack < level.modularity after.state.community)
      ∧ let pass := sequentialPass level s
        (pass.2 ≠ 0 →
          level.modularity s.community + 2 * Scalar.slack * pass.2 < level.modularity pass.1.community)
        ∧ (pass.2 = 0 → pass.1 = s ∧ LocallyOptimal level s) := by
  have symmetric := found.symmetric loaded
  have aggregated := reached.aggregated
  refine ⟨?_, ?_, ?_⟩
  · intro earlier node later _
    refine Pass.visit_climbs symmetric ?_ (aggregated.foldl_visit earlier).exact node
    exact List.foldlRecOn (motive := fun pass : Pass n Rat => pass.scratch.Clean) earlier _ Scratch.clean_fresh
      fun _ clean node _ => Pass.clean_visit clean node
  · intro moved
    rw [Level.modularity_eq_quality, Level.modularity_eq_quality]
    rcases sequentialPass_cases symmetric aggregated.exact with ⟨still, -⟩ | ⟨-, raised⟩
    · exact absurd still moved
    · exact raised
  · intro still
    rcases sequentialPass_cases symmetric aggregated.exact with ⟨-, same⟩ | ⟨moved, -⟩
    · have best := (sequentialPass_moves_eq_zero_iff level s).1 still
      exact ⟨same, locallyOptimal_of_best symmetric aggregated.exact best⟩
    · exact absurd still moved

/-- Two workers have searched the junctions. A pass on the level that they have come to follows on one of three
workers there. -/
theorem sequentialPass_optimizes_junctions : ∃ (g : Graph Rat) (k : Nat) (last : Climb g.size k Rat) (completed : Bool),
    Loading.loadInto .huge Loading.fiveByDefault Loading.junctions = .ok g ∧ g.Loaded
      ∧ detect g { weighted := true } (some 2) .always = last.report completed
      ∧ let s := (partitionedPass last.level 3 (.singletons last.level)).1
        let pass := sequentialPass last.level s
        SearchLevel g true last.level ∧ Reachable last.level s
          ∧ (pass.2 ≠ 0 →
            last.level.modularity s.community + 2 * Scalar.slack * pass.2 < last.level.modularity pass.1.community)
          ∧ (pass.2 = 0 → pass.1 = s ∧ LocallyOptimal last.level s) := by
  obtain ⟨g, loaded, -⟩ := Loading.exists_load_junctions .huge
  have isLoaded : g.Loaded := ⟨_, _, _, loaded⟩
  obtain ⟨k, last, completed, found, search⟩ := exists_searchLevel_detect g { weighted := true } (some 2) .always
  have reached : Reachable last.level (partitionedPass last.level 3 (.singletons last.level)).1 := .partitioned .start 3
  exact ⟨g, k, last, completed, loaded, isLoaded, search, found, reached,
    (sequentialPass_optimizes isLoaded found reached).2⟩

end NetworkAnalysis.Community
