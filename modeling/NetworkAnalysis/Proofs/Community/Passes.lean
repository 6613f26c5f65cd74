import NetworkAnalysis.Community.Detection
import NetworkAnalysis.Proofs.Community.Gain

/-!
# What passes do to the modularity

In a sequential pass the totals are up to date at every node, so that each move raises the modularity by more than
twice the slack. A partitioned pass is taken back where it would lower the modularity by more than the slack. What
every pass keeps, all passes of a level keep.
-/

namespace NetworkAnalysis.Community

variable {n : Nat}

/-- The modularity of the communities of a state. -/
def MoveState.quality (level : Level n Rat) (s : MoveState n Rat) : Rat :=
  level.quality fun u : Fin n => s.community[u]

/-! ## Sequential passes -/

section Visits

variable {α : Type} [Scalar α] {level : Level n α} {pass : Pass n α} {node : Fin n}

theorem Pass.visit_of_stays (clean : pass.scratch.Clean)
    (stays : bestCommunity level pass.state node = pass.state.community[node]) :
    pass.visit level node = { pass with scratch := (pass.scratch.best level pass.state node).2 } := by
  have best := clean.best_eq level pass.state node
  unfold Pass.visit
  dsimp only
  rw [best, if_pos stays]

theorem Pass.visit_of_leaves (clean : pass.scratch.Clean)
    (leaves : bestCommunity level pass.state node ≠ pass.state.community[node]) :
    pass.visit level node
      = { state := pass.state.relocate node (bestCommunity level pass.state node) level.degrees[node]
          scratch := (pass.scratch.best level pass.state node).2
          moves := pass.moves + 1 } := by
  have best := clean.best_eq level pass.state node
  unfold Pass.visit
  dsimp only
  rw [best, if_neg leaves]

/-- What holds at the start and is kept by every move to a best community holds after visits to any nodes. -/
theorem Pass.foldl_visit_induct {P : MoveState n α → (moves : Nat) → Prop} {s : MoveState n α} (start : P s 0)
    (move : ∀ t moves node, P t moves → bestCommunity level t node ≠ t.community[node] →
      P (t.relocate node (bestCommunity level t node) level.degrees[node]) (moves + 1)) (nodes : List (Fin n)) :
    let pass := nodes.foldl (Pass.visit level) { state := s, scratch := .fresh, moves := 0 }
    P pass.state pass.moves := by
  let Holds : Pass n α → Prop := fun pass => pass.scratch.Clean ∧ P pass.state pass.moves
  have visit : ∀ pass node, Holds pass → Holds (pass.visit level node) := by
    rintro pass node ⟨clean, holds⟩
    have clean' := clean.best level pass.state node
    by_cases stays : bestCommunity level pass.state node = pass.state.community[node]
    · rw [Pass.visit_of_stays clean stays]
      exact ⟨clean', holds⟩
    · rw [Pass.visit_of_leaves clean stays]
      exact ⟨clean', move _ _ _ holds stays⟩
  have begun : Holds ⟨s, .fresh, 0⟩ := ⟨Scratch.clean_fresh, start⟩
  exact (List.foldlRecOn nodes (Pass.visit level) begun fun pass holds node _ => visit pass node holds).2

/-- What holds before a sequential pass and is kept by every move to a best community holds after the pass. -/
theorem sequentialPass_induct {P : MoveState n α → (moves : Nat) → Prop} {s : MoveState n α} (start : P s 0)
    (move : ∀ t moves node, P t moves → bestCommunity level t node ≠ t.community[node] →
      P (t.relocate node (bestCommunity level t node) level.degrees[node]) (moves + 1)) :
    P (sequentialPass level s).1 (sequentialPass level s).2 :=
  Pass.foldl_visit_induct start move (List.finRange n)

end Visits

/-- A move to the best community raises the modularity by more than twice the slack. -/
theorem quality_relocate {level : Level n Rat} (symmetric : level.Symmetric) {s : MoveState n Rat}
    (exact : s.Exact level) {node : Fin n}
    (leaves : bestCommunity level s node ≠ s.community[node]) (degree : Rat) :
    s.quality level + 2 * Scalar.slack
      < (s.relocate node (bestCommunity level s node) degree).quality level := by
  obtain ⟨positive, stronger⟩ := pull_bestCommunity symmetric exact leaves
  have others : ∀ v : Fin n, v ≠ node →
      (s.community.set node (bestCommunity level s node))[v] = s.community[v] :=
    fun v other => Table.getElem_set_of_ne _ _ other.symm
  have moved := Level.quality_move symmetric positive others
  rw [Table.getElem_set_self] at moved
  show _ < level.quality fun u : Fin n => (s.community.set node (bestCommunity level s node))[u]
  rw [moved, MoveState.quality]
  linarith

/-- A sequential pass keeps the totals up to date and raises the modularity with every move. -/
theorem sequentialPass_climbs {level : Level n Rat} (symmetric : level.Symmetric) {s : MoveState n Rat}
    (exact : s.Exact level) :
    (sequentialPass level s).1.Exact level
      ∧ s.quality level + 2 * Scalar.slack * (sequentialPass level s).2
        ≤ (sequentialPass level s).1.quality level := by
  refine sequentialPass_induct (P := fun t moves =>
    t.Exact level ∧ s.quality level + 2 * Scalar.slack * moves ≤ t.quality level) ⟨exact, by simp⟩ ?_
  rintro t moves node ⟨exact', raised⟩ leaves
  have climbed := quality_relocate symmetric exact' leaves level.degrees[node]
  refine ⟨exact'.relocate leaves, ?_⟩
  push_cast
  linarith

/-! ## Partitioned passes -/

/-- A partitioned pass lowers the modularity by no more than the slack. -/
theorem partitionedPass_loses (level : Level n Rat) (workers : Nat) (s : MoveState n Rat) :
    s.quality level - Scalar.slack ≤ (partitionedPass level workers s).1.quality level := by
  have slack := Scratch.slack_nonneg
  unfold partitionedPass
  dsimp only
  split
  · exact sub_le_self _ slack
  · rw [Level.modularity_eq_quality, Level.modularity_eq_quality]
    split
    · exact sub_le_self _ slack
    · next kept => exact sub_le_iff_le_add.2 (not_lt.1 kept)

/-! ## Levels -/

section Passes

variable {α : Type} [Scalar α] {limits : Limits} {watch : Watch} {level : Level n α} {left passes moves polls : Nat}
  {state : MoveState n α}

theorem optimizeFrom_of_stop (stop : watch polls = false) :
    optimizeFrom limits watch level (left + 1) state passes moves polls
      = { state, passes, moves, polls := polls + 1, completed := false } := by
  unfold optimizeFrom
  rw [stop]
  rfl

theorem optimizeFrom_of_go (go : watch polls = true) :
    optimizeFrom limits watch level (left + 1) state passes moves polls
      = if (limits.pass level state).2 = 0 then
          { state := (limits.pass level state).1, passes := passes + 1, moves, polls := polls + 1, completed := true }
        else
          optimizeFrom limits watch level left (limits.pass level state).1 (passes + 1)
            (moves + (limits.pass level state).2) (polls + 1) := by
  rw [optimizeFrom, go]
  rfl

end Passes

/-- What holds of the start of a level and is kept by every pass holds of its end. -/
theorem optimize_induct {α : Type} [Scalar α] {limits : Limits} {level : Level n α}
    {P : MoveState n α → (passes moves : Nat) → Prop} (start : P (.singletons level) 0 0)
    (pass : ∀ state passes moves, P state passes moves →
      P (limits.pass level state).1 (passes + 1) (moves + (limits.pass level state).2))
    (watch : Watch) (polls : Nat) :
    let run := optimize limits watch polls level
    P run.state run.passes run.moves := by
  have passes : ∀ (left : Nat) (state : MoveState n α) (passes moves polls : Nat), P state passes moves →
      let run := optimizeFrom limits watch level left state passes moves polls
      P run.state run.passes run.moves := by
    intro left
    induction left with
    | zero => exact fun _ _ _ _ holds => holds
    | succ left ih =>
      intro state passes moves polls holds
      have next := pass state passes moves holds
      unfold optimizeFrom
      split
      · exact holds
      · dsimp only
        split
        · next still =>
          rw [still] at next
          exact next
        · exact ih _ _ _ _ next
  exact passes _ _ _ _ _ start

theorem MoveState.quality_singletons (level : Level n Rat) :
    (singletons level).quality level = level.quality (id : Fin n → Fin n) :=
  level.quality_congr fun u v => by simp [singletons]

/-- The sequential passes of a level raise the modularity with every move. -/
theorem optimize_climbs {level : Level n Rat} (symmetric : level.Symmetric) {limits : Limits}
    (sequential : limits.workers = none) (watch : Watch) (polls : Nat) :
    let run := optimize limits watch polls level
    level.quality (id : Fin n → Fin n) + 2 * Scalar.slack * run.moves ≤ run.state.quality level := by
  let Raised : MoveState n Rat → Nat → Nat → Prop := fun state _ moves =>
    state.Exact level
      ∧ level.quality (id : Fin n → Fin n) + 2 * Scalar.slack * moves ≤ state.quality level
  have start : Raised (.singletons level) 0 0 := by
    refine ⟨MoveState.exact_singletons level, ?_⟩
    rw [MoveState.quality_singletons]
    simp
  have pass : ∀ state passes moves, Raised state passes moves →
      Raised (limits.pass level state).1 (passes + 1) (moves + (limits.pass level state).2) := by
    rintro state passes moves ⟨exact, above⟩
    obtain ⟨exact', raised⟩ := sequentialPass_climbs symmetric exact
    unfold Limits.pass
    rw [sequential]
    refine ⟨exact', ?_⟩
    push_cast
    linarith
  exact (optimize_induct start pass watch polls).2

/-- The partitioned passes of a level lower the modularity by no more than the slack each. -/
theorem optimize_loses (level : Level n Rat) {limits : Limits} {workers : Nat}
    (partitioned : limits.workers = some workers) (watch : Watch) (polls : Nat) :
    let run := optimize limits watch polls level
    level.quality (id : Fin n → Fin n) - Scalar.slack * run.passes ≤ run.state.quality level := by
  let Kept : MoveState n Rat → Nat → Nat → Prop := fun state passes _ =>
    level.quality (id : Fin n → Fin n) - Scalar.slack * passes ≤ state.quality level
  have start : Kept (.singletons level) 0 0 := by
    show _ - Scalar.slack * ((0 : Nat) : Rat) ≤ (MoveState.singletons level).quality level
    rw [MoveState.quality_singletons]
    simp
  have pass : ∀ state passes moves, Kept state passes moves →
      Kept (limits.pass level state).1 (passes + 1) (moves + (limits.pass level state).2) := by
    intro state passes moves above
    have loses := partitionedPass_loses level workers state
    show _ - Scalar.slack * ((passes + 1 : Nat) : Rat) ≤ (limits.pass level state).1.quality level
    unfold Limits.pass
    rw [partitioned]
    push_cast
    linarith
  exact optimize_induct start pass watch polls

end NetworkAnalysis.Community
