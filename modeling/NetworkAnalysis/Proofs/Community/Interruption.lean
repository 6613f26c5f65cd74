import NetworkAnalysis.Proofs.Community.Convergence
import NetworkAnalysis.Proofs.Community.Pairs

/-!
# Searches that are stopped

The watch is asked before every pass, so that a budget of questions is a budget of passes. A search under a budget goes
the way of the search that is never stopped, up to the pass for which the budget does not suffice: a `Stage` is what
that search is before one of its passes. Where the budget ends, the level of the stage is left as if its passes were
over, unless it has had none yet.
-/

namespace NetworkAnalysis.Community

variable {n m : Nat} {α : Type} [Scalar α]

/-! ## One level -/

/-- The state of a level after a number of passes. -/
def Limits.after (limits : Limits) (level : Level n α) (passes : Nat) : MoveState n α :=
  (fun state => (limits.pass level state).1)^[passes] (.singletons level)

/-- Passes under a budget are the passes that there are without one, as many as the budget suffices for. -/
theorem optimizeFrom_budget (limits : Limits) (level : Level n α) (left : Nat) (state : MoveState n α)
    (passes moves polls : Nat) :
    let next : MoveState n α → MoveState n α := fun state => (limits.pass level state).1
    let run := fun watch => optimizeFrom limits watch level left state passes moves polls
    ∃ ran, (run .always).passes = passes + ran ∧ (run .always).polls = polls + ran
      ∧ (∀ budget, polls + ran ≤ budget → run (.budget budget) = run .always)
      ∧ ∀ done < ran, ∃ moved, (moved = 0 ↔ done = 0) ∧ run (.budget (polls + done))
        = ⟨next^[done] state, passes + done, moves + moved, polls + done + 1, false⟩ := by
  induction left generalizing state passes moves polls with
  | zero => exact ⟨0, rfl, rfl, fun _ _ => rfl, fun _ below => absurd below (Nat.not_lt_zero _)⟩
  | succ left ih =>
    have always : optimizeFrom limits .always level (left + 1) state passes moves polls = _ := optimizeFrom_of_go rfl
    have go : ∀ {budget : Nat}, polls < budget → Watch.budget budget polls = true := decide_eq_true
    have stop : Watch.budget (polls + 0) polls = false := decide_eq_false (Nat.lt_irrefl polls)
    dsimp only
    rw [always]
    by_cases still : (limits.pass level state).2 = 0
    · rw [if_pos still]
      refine ⟨1, rfl, rfl, fun budget enough => ?_, fun done below => ?_⟩
      · rw [optimizeFrom_of_go (go enough), if_pos still]
      · obtain rfl : done = 0 := Nat.lt_one_iff.1 below
        exact ⟨0, Iff.rfl, optimizeFrom_of_stop stop⟩
    · rw [if_neg still]
      obtain ⟨ran, passes', polls', enough', short'⟩ :=
        ih (limits.pass level state).1 (passes + 1) (moves + (limits.pass level state).2) (polls + 1)
      dsimp only at passes' polls' enough' short'
      refine ⟨ran + 1, by omega, by omega, fun budget enough => ?_, fun done below => ?_⟩
      · rw [optimizeFrom_of_go (go (by omega)), if_neg still]
        exact enough' budget (by omega)
      · cases done with
        | zero => exact ⟨0, Iff.rfl, optimizeFrom_of_stop stop⟩
        | succ done =>
          obtain ⟨moved, -, cut⟩ := short' done (by omega)
          have more : polls + (done + 1) = polls + 1 + done := by omega
          refine ⟨(limits.pass level state).2 + moved, by omega, ?_⟩
          rw [more, optimizeFrom_of_go (go (by omega)), if_neg still, cut]
          simp only [Function.iterate_succ_apply, LevelRun.mk.injEq, true_and, and_true]
          omega

theorem optimize_budget (limits : Limits) (level : Level n α) (polls : Nat) :
    let full := optimize limits .always polls level
    full.polls = polls + full.passes
      ∧ (∀ budget, polls + full.passes ≤ budget → optimize limits (.budget budget) polls level = full)
      ∧ ∀ done < full.passes, ∃ moves, (moves = 0 ↔ done = 0) ∧ optimize limits (.budget (polls + done)) polls level
        = ⟨limits.after level done, done, moves, polls + done + 1, false⟩ := by
  obtain ⟨ran, passes, asked, enough, short⟩ :=
    optimizeFrom_budget limits level limits.maxIterations (.singletons level) 0 0 polls
  have all : (optimize limits .always polls level).passes = ran := passes.trans (Nat.zero_add ran)
  dsimp only
  rw [all]
  refine ⟨asked, enough, fun done below => ?_⟩
  obtain ⟨moved, unmoved, cut⟩ := short done below
  rw [Nat.zero_add, Nat.zero_add] at cut
  exact ⟨moved, unmoved, cut⟩

/-- A level has a second pass if two are allowed and the first one moves nodes. -/
theorem one_lt_passes {limits : Limits} (allowed : 2 ≤ limits.maxIterations) {level : Level n α}
    (moved : (limits.pass level (.singletons level)).2 ≠ 0) (polls : Nat) :
    1 < (optimize limits .always polls level).passes := by
  by_contra few
  obtain ⟨left, iterations⟩ := Nat.exists_eq_add_of_le' allowed
  obtain ⟨-, same, -⟩ := optimize_budget limits level polls
  have finished := congrArg LevelRun.completed (same (polls + 1) (by omega))
  have go : Watch.budget (polls + 1) polls = true := decide_eq_true (Nat.lt_succ_self polls)
  have stop : Watch.budget (polls + 1) (polls + 1) = false := decide_eq_false (Nat.lt_irrefl _)
  rw [optimize_always, optimize, iterations, optimizeFrom_of_go go, if_neg moved, optimizeFrom_of_stop stop] at finished
  cases finished

/-! ## Stages -/

/-- A search among `n` base nodes that is never stopped, before one of its passes: the level that it has come to, and
how many passes there have been at that level. -/
structure Stage (n : Nat) (α : Type) where
  nodes : Nat
  climb : Climb n nodes α
  passes : Nat

/-- The communities of the base nodes: the places at the level, and the communities there after the passes so far. -/
def Stage.assignment (limits : Limits) (s : Stage n α) : Table n Nat :=
  let communities := renumber (limits.after s.climb.level s.passes).community
  s.climb.place.map fun node => (communities.community[node]).val

namespace Climb

/-- The search on the next level, if it is not stopped at this one. -/
def above (limits : Limits) (c : Climb n m α) :
    Climb n (renumber (optimize limits .always c.polls c.level).state.community).count α :=
  c.next limits (optimize limits .always c.polls c.level)

/-- The stages at the level of a search, one before each pass. -/
def levelStages (limits : Limits) (c : Climb n m α) : List (Stage n α) :=
  (List.range (optimize limits .always c.polls c.level).passes).map fun passes => ⟨m, c, passes⟩

/-- The stages of a search, at its level and at those after it. -/
def stages (limits : Limits) : (left : Nat) → {m : Nat} → Climb n m α → List (Stage n α)
  | 0, _, _ => []
  | left + 1, _, c =>
    c.levelStages limits
      ++ if (optimize limits .always c.polls c.level).moves = 0 then [] else stages limits left (c.above limits)

variable {limits : Limits} {left done : Nat} {c : Climb n m α} {stage : Stage n α}

theorem polls_above (limits : Limits) (c : Climb n m α) :
    (c.above limits).polls = c.polls + (optimize limits .always c.polls c.level).passes :=
  (optimize_budget limits c.level c.polls).1

theorem run_always_of_moved (moved : (optimize limits .always c.polls c.level).moves ≠ 0) :
    c.run limits .always (left + 1) = (c.above limits).run limits .always left := by
  rw [run]
  dsimp only
  rw [if_neg moved, if_pos (optimize_always limits c.polls c.level)]
  rfl

theorem length_levelStages (limits : Limits) (c : Climb n m α) :
    (c.levelStages limits).length = (optimize limits .always c.polls c.level).passes := by
  rw [levelStages, List.length_map, List.length_range]

theorem getElem?_levelStages (inside : done < (optimize limits .always c.polls c.level).passes) :
    (c.levelStages limits)[done]? = some ⟨m, c, done⟩ := by
  rw [levelStages, List.getElem?_map, List.getElem?_range inside]
  rfl

theorem getElem?_stages (inside : done < (optimize limits .always c.polls c.level).passes) :
    (c.stages limits (left + 1))[done]? = some ⟨m, c, done⟩ := by
  rw [stages, List.getElem?_append_left (by rwa [length_levelStages]), getElem?_levelStages inside]

/-- A search that is not stopped comes to all of its stages and goes on from there. They have what its levels keep. -/
theorem of_mem_stages (limits : Limits) {P : {m : Nat} → Climb n m α → Prop}
    (next : ∀ {m : Nat} (c : Climb n m α) (run : LevelRun m α), P c → P (c.next limits run)) (start : P c)
    (member : stage ∈ c.stages limits left) :
    P stage.climb ∧ stage.passes < (optimize limits .always stage.climb.polls stage.climb.level).passes
      ∧ ∃ left', c.run limits .always left = stage.climb.run limits .always (left' + 1) := by
  induction left generalizing m c with
  | zero => cases member
  | succ left ih =>
    rw [stages, List.mem_append] at member
    rcases member with here | later
    · obtain ⟨passes, below, rfl⟩ := List.mem_map.1 here
      exact ⟨start, List.mem_range.1 below, left, rfl⟩
    · split at later
      · cases later
      · next moved =>
        obtain ⟨holds, more, left', goes⟩ := ih (next c _ start) later
        exact ⟨holds, more, left', (run_always_of_moved moved).trans goes⟩

/-- The stages are numbered by the passes before them. -/
theorem iterations_stages (here : (c.stages limits left)[done]? = some stage) :
    stage.climb.iterations + stage.passes = c.iterations + done := by
  induction left generalizing m c done with
  | zero => cases here
  | succ left ih =>
    rw [stages, List.getElem?_append, length_levelStages] at here
    split at here
    · next inside =>
      rw [getElem?_levelStages inside] at here
      obtain rfl := Option.some.inj here
      rfl
    · next beyond =>
      split at here
      · cases here
      · have counted := ih here
        have iterations : (c.above limits).iterations
            = c.iterations + (optimize limits .always c.polls c.level).passes := rfl
        omega

/-- A search that is not stopped has a stage for each of its passes, and asks once at each. -/
theorem run_always_counts (limits : Limits) (left : Nat) (c : Climb n m α) :
    (c.run limits .always left).value.iterations = c.iterations + (c.stages limits left).length
      ∧ (c.run limits .always left).polls = c.polls + (c.stages limits left).length := by
  induction left generalizing m c with
  | zero => exact ⟨rfl, rfl⟩
  | succ left ih =>
    have asked := c.polls_above limits
    rw [stages, List.length_append, length_levelStages]
    by_cases moved : (optimize limits .always c.polls c.level).moves = 0
    · rw [if_pos moved, run]
      dsimp only
      rw [if_pos moved]
      exact ⟨rfl, asked⟩
    · obtain ⟨iterations, polls⟩ := ih (c.above limits)
      have counted : (c.above limits).iterations
          = c.iterations + (optimize limits .always c.polls c.level).passes := rfl
      rw [if_neg moved, run_always_of_moved moved]
      omega

/-! ## Runs under a budget -/

/-- Where the budget suffices for the passes of a level, the level is the same as without one. -/
theorem run_budget_of_moved (moved : (optimize limits .always c.polls c.level).moves ≠ 0) {budget : Nat}
    (enough : c.polls + (optimize limits .always c.polls c.level).passes ≤ budget) :
    c.run limits (.budget budget) (left + 1) = (c.above limits).run limits (.budget budget) left := by
  obtain ⟨-, same, -⟩ := optimize_budget limits c.level c.polls
  rw [run, same budget enough]
  dsimp only
  rw [if_neg moved, if_pos (optimize_always limits c.polls c.level)]
  rfl

/-- A budget that suffices for all passes makes no difference. -/
theorem run_budget_of_le (limits : Limits) (left : Nat) (c : Climb n m α) {budget : Nat}
    (enough : c.polls + (c.stages limits left).length ≤ budget) :
    c.run limits (.budget budget) left = c.run limits .always left := by
  induction left generalizing m c with
  | zero => rfl
  | succ left ih =>
    have asked := c.polls_above limits
    rw [stages, List.length_append, length_levelStages] at enough
    by_cases moved : (optimize limits .always c.polls c.level).moves = 0
    · obtain ⟨-, same, -⟩ := optimize_budget limits c.level c.polls
      rw [run, run, same budget (by omega)]
      dsimp only
      rw [if_pos moved, if_pos moved]
    · rw [if_neg moved] at enough
      rw [run_budget_of_moved moved (by omega), run_always_of_moved moved]
      exact ih (c.above limits) (by omega)

/-- A budget that does not suffice stops the run at the stage whose pass it does not suffice for. -/
theorem run_budget_of_lt (limits : Limits) (left : Nat) (c : Climb n m α)
    (short : done < (c.stages limits left).length) :
    ∃ (stage : Stage n α) (run : LevelRun stage.nodes α), (c.stages limits left)[done]? = some stage
      ∧ run.state = limits.after stage.climb.level stage.passes ∧ run.passes = stage.passes
      ∧ run.polls = c.polls + done + 1
      ∧ c.run limits (.budget (c.polls + done)) left
        = if stage.passes = 0 then (stage.climb.rest run).report false
          else (stage.climb.next limits run).report false := by
  induction left generalizing m c done with
  | zero => cases short
  | succ left ih =>
    rw [stages, List.length_append, length_levelStages] at short
    by_cases inside : done < (optimize limits .always c.polls c.level).passes
    -- The budget ends at this level, and what has moved there decides whether the level counts.
    · obtain ⟨-, -, cut⟩ := optimize_budget limits c.level c.polls
      obtain ⟨moves, unmoved, stopped⟩ := cut done inside
      refine ⟨⟨m, c, done⟩, ⟨limits.after c.level done, done, moves, c.polls + done + 1, false⟩,
        getElem?_stages inside, rfl, rfl, rfl, ?_⟩
      rw [run, stopped]
      dsimp only
      by_cases first : done = 0
      · rw [if_pos first, if_pos (unmoved.2 first)]
      · rw [if_neg first, if_neg fun still => first (unmoved.1 still)]
        rfl
    · rw [stages, List.getElem?_append, length_levelStages]
      by_cases moved : (optimize limits .always c.polls c.level).moves = 0
      · rw [if_pos moved] at short
        exact absurd short inside
      · rw [if_neg moved] at short ⊢
        have asked := c.polls_above limits
        have fewer : done - (optimize limits .always c.polls c.level).passes
            < ((c.above limits).stages limits left).length := by omega
        obtain ⟨stage, run, here, state, passes, polls, stopped⟩ := ih (c.above limits) fewer
        have spent : (c.above limits).polls + (done - (optimize limits .always c.polls c.level).passes)
            = c.polls + done := by omega
        -- What the levels before have spent of the budget, the search above has asked for.
        rw [spent] at polls stopped
        rw [if_neg inside, run_budget_of_moved moved (by omega)]
        exact ⟨stage, run, here, state, passes, polls, stopped⟩

/-- A run goes on from the levels that there are. -/
theorem run_goes_on (limits : Limits) (watch : Watch) (left : Nat) (c : Climb n m α) :
    c.levels ≤ (c.run limits watch left).value.levels
      ∧ c.levelModularities.toList <+: (c.run limits watch left).value.levelModularities.toList := by
  induction left generalizing m c with
  | zero => exact ⟨Nat.le_refl _, List.prefix_rfl⟩
  | succ left ih =>
    let levelRun := optimize limits watch c.polls c.level
    have pushed : c.levelModularities.toList <+: (c.next limits levelRun).levelModularities.toList :=
      ⟨[(c.next limits levelRun).modularity], Array.toList_push.symm⟩
    obtain ⟨levels, listed⟩ := ih (c.next limits levelRun)
    rw [run]
    dsimp only
    split
    · exact ⟨Nat.le_refl _, List.prefix_rfl⟩
    · split
      · exact ⟨Nat.le_of_succ_le levels, pushed.trans listed⟩
      · exact ⟨Nat.le_succ _, pushed⟩

end Climb

/-! ## Searches that go on after a pass -/

/-- A sequential search has more than one pass at its first level if two nodes gain by sharing a community. -/
theorem one_lt_passes_ofGraph {g : Graph Rat} (loaded : g.Loaded) {weighted : Bool} {limits : Limits}
    (sequential : limits.workers = none) (allowed : 2 ≤ limits.maxIterations) {u v : Fin g.size}
    (positive : 0 < g.mass weighted) (other : v ≠ u) (shared : g.joint weighted u v ≠ 0)
    (gains : Scalar.slack * g.mass weighted
      < g.joint weighted u v - g.strength weighted v * g.strength weighted u / g.mass weighted) :
    1 < (optimize limits .always 0 (Level.ofGraph g weighted)).passes := by
  have loopless := (loaded.symmetric_level weighted).loopless
  obtain ⟨_, _, _, load⟩ := loaded
  have shown : ∃ rows, g.Shows rows := ⟨_, (Loading.stored_of_loadInto load).shows⟩
  refine one_lt_passes allowed (fun still => ?_) 0
  have settled := (pass_singletons_eq_zero_iff loopless sequential).1 still
  rw [← Graph.total_level shown] at positive gains
  rw [← Graph.weight_level shown] at shared gains
  rw [← Graph.degrees_level shown, ← Graph.degrees_level shown] at gains
  exact Level.not_settled positive other shared gains settled

/-- Among the junctions, 10 and 30 gain by sharing a community. -/
theorem one_lt_passes_junctions {storage : Storage} {g : Graph Rat}
    (loaded : Loading.loadInto storage Loading.fiveByDefault Loading.junctions = .ok g) {limits : Limits}
    (sequential : limits.workers = none) (allowed : 2 ≤ limits.maxIterations) :
    1 < (optimize limits .always 0 (Level.ofGraph g true)).passes := by
  have keeps := (Loading.stored_of_loadInto loaded).keeps (by decide)
  obtain ⟨u, ten⟩ : ∃ u : Fin g.size, g.ids.label u = 10 :=
    IdMap.mem_labels_iff.1 (keeps.labels ▸ by decide)
  obtain ⟨v, thirty⟩ : ∃ v : Fin g.size, g.ids.label v = 30 :=
    IdMap.mem_labels_iff.1 (keeps.labels ▸ by decide)
  have other : v ≠ u := by
    rintro rfl
    rw [ten] at thirty
    cases thirty
  have mass : g.mass true = 24 := (Graph.mass_listed keeps true).trans (by decide +kernel)
  have joint : g.joint true u v = 10 := by
    rw [Graph.joint_listed keeps, ten, thirty]
    decide +kernel
  have first : g.strength true u = 11 := by
    rw [Graph.strength_listed keeps, ten]
    decide +kernel
  have second : g.strength true v = 11 := by
    rw [Graph.strength_listed keeps, thirty]
    decide +kernel
  refine one_lt_passes_ofGraph ⟨_, _, _, loaded⟩ sequential allowed ?_ other ?_ ?_
  · rw [mass]
    decide +kernel
  · rw [joint]
    decide +kernel
  · rw [mass, joint, first, second]
    decide +kernel

/-! ## Searches -/

/-- What is reported of a search that is stopped at a stage, after `budget` passes. -/
structure Stage.Stops (limits : Limits) (full : Communities n α) (budget : Nat) (stage : Stage n α)
    (report : Report α (Communities n α)) : Prop where
  completed : report.completed = false
  polls : report.polls = budget + 1
  iterations : report.value.iterations = budget
  passes : stage.climb.iterations + stage.passes = budget
  assignment : report.value.assignment = stage.assignment limits
  /-- The search that is not stopped goes on from the level of the stage. -/
  goes_on : ∃ left, full = (stage.climb.run limits .always (left + 1)).value
  /-- It has more passes there than the stage. -/
  more : stage.passes < (optimize limits .always stage.climb.polls stage.climb.level).passes
  finished : stage.climb.levels ≤ full.levels
  /-- The level of the stage counts if it has had a pass. -/
  levels : report.value.levels = stage.climb.levels + if stage.passes = 0 then 0 else 1
  /-- The levels before it have the modularities that they have in the end. -/
  levelModularities : report.value.levelModularities.toList = full.levelModularities.toList.take stage.climb.levels
    ++ if stage.passes = 0 then [] else [report.value.modularity]

/-- Nothing has moved before the first pass, and single nodes have their own numbers. -/
theorem Stage.assignment_rest (limits : Limits) {stage : Stage n α} (first : stage.passes = 0)
    (run : LevelRun stage.nodes α) : (stage.climb.rest run).found.assignment = stage.assignment limits := by
  ext u
  show (stage.climb.place.map Fin.val)[u] = _
  rw [Stage.assignment, Table.getElem_map, Table.getElem_map, first]
  exact (renumber_ofFn_id stage.climb.place[u]).symm

theorem Stage.assignment_next {limits : Limits} {stage : Stage n α} {run : LevelRun stage.nodes α}
    (state : run.state = limits.after stage.climb.level stage.passes) :
    (stage.climb.next limits run).found.assignment = stage.assignment limits := by
  ext u
  show ((stage.climb.place.map _).map Fin.val)[u] = _
  rw [Stage.assignment, Table.getElem_map, Table.getElem_map, Table.getElem_map, state]

/-- A run stops at the stage that has the budget for its number. What it reports is what the full run has there, with
the level counted if one of its passes is over. -/
theorem Climb.stops_run (limits : Limits) (level : Level n α) {left budget : Nat}
    (short : budget < ((start level).stages limits left).length) :
    ∃ stage, ((start level).stages limits left)[budget]? = some stage
      ∧ stage.Stops limits ((start level).run limits .always left).value budget
        ((start level).run limits (.budget budget) left) := by
  obtain ⟨stage, run, here, state, passes, polls, stopped⟩ := run_budget_of_lt limits left (start level) short
  have asked : (start level).polls + budget = budget := Nat.zero_add budget
  have before : stage.climb.iterations + stage.passes = budget := (iterations_stages here).trans (Nat.zero_add budget)
  have iterations : stage.climb.iterations + run.passes = budget := by rw [passes, before]
  rw [asked] at polls stopped
  have counts : ∀ {k : Nat} (c : Climb n k α) (run : LevelRun k α),
      c.levelModularities.size = c.levels → (c.next limits run).levelModularities.size = (c.next limits run).levels :=
    fun c _ counted => (Array.size_push _).trans (congrArg (· + 1) counted)
  obtain ⟨counted, more, left', goes⟩ := of_mem_stages limits (P := fun c => c.levelModularities.size = c.levels) counts
    (c := start level) rfl (List.mem_of_getElem? here)
  have goes_on := congrArg (fun report => report.value) goes
  obtain ⟨finished, listed⟩ := stage.climb.run_goes_on limits .always (left' + 1)
  rw [← goes] at finished listed
  have earlier := List.prefix_iff_eq_take.1 listed
  rw [Array.length_toList, counted] at earlier
  refine ⟨stage, here, ?_⟩
  rw [stopped]
  by_cases first : stage.passes = 0
  · rw [if_pos first]
    exact
      { completed := rfl
        polls := polls
        iterations := iterations
        passes := before
        assignment := stage.assignment_rest limits first run
        goes_on := ⟨left', goes_on⟩
        more := more
        finished := finished
        levels := by
          rw [if_pos first]
          rfl
        levelModularities := by
          rw [if_pos first, List.append_nil]
          exact earlier }
  · rw [if_neg first]
    exact
      { completed := rfl
        polls := polls
        iterations := iterations
        passes := before
        assignment := Stage.assignment_next state
        goes_on := ⟨left', goes_on⟩
        more := more
        finished := finished
        levels := by
          rw [if_neg first]
          rfl
        levelModularities := by
          rw [if_neg first, ← earlier]
          exact Array.toList_push }

/-- A search under a budget of questions is the search without one if that has no more passes. Otherwise it stops where
that search is after as many passes. -/
theorem detect_interrupted (g : Graph α) (settings : CommunitySettings) (workers : Option Nat) (budget : Nat) :
    let limits : Limits := { maxIterations := settings.maxIterations, maxLevels := settings.maxLevels, workers }
    let stages := (Climb.start (Level.ofGraph g settings.weighted)).stages limits settings.maxLevels
    let full := detect g settings workers .always
    let cut := detect g settings workers (.budget budget)
    stages.length = full.value.iterations
      ∧ (full.value.iterations ≤ budget →
        cut = full ∧ cut.completed = true ∧ cut.polls = full.value.iterations)
      ∧ (budget < full.value.iterations →
        ∃ stage, stages[budget]? = some stage ∧ stage.Stops limits full.value budget cut) := by
  let limits : Limits := ⟨settings.maxIterations, settings.maxLevels, workers⟩
  let level := Level.ofGraph g settings.weighted
  obtain ⟨iterations, polls⟩ := (Climb.start level).run_always_counts limits settings.maxLevels
  have counted : (detect g settings workers .always).value.iterations
      = ((Climb.start level).stages limits settings.maxLevels).length := iterations.trans (Nat.zero_add _)
  have asked : (detect g settings workers .always).polls
      = ((Climb.start level).stages limits settings.maxLevels).length := polls.trans (Nat.zero_add _)
  have finished : (detect g settings workers .always).completed = true := Climb.run_always limits _ _
  refine ⟨counted.symm, fun enough => ?_, fun short => ?_⟩
  · rw [counted] at enough
    have same : detect g settings workers (.budget budget) = detect g settings workers .always :=
      (Climb.start level).run_budget_of_le limits settings.maxLevels ((Nat.zero_add _).trans_le enough)
    rw [same, counted]
    exact ⟨rfl, finished, asked⟩
  · rw [counted] at short
    exact Climb.stops_run limits level short

/-- A search among the junctions that may ask once is stopped at the first level, after the first of its passes. -/
theorem detect_interrupted_junctions : ∃ g : Graph Rat,
    let limits : Limits := { maxIterations := 20, maxLevels := 10, workers := none }
    let full := detect g { weighted := true } none .always
    Loading.loadInto .dense Loading.fiveByDefault Loading.junctions = .ok g ∧ 1 < full.value.iterations
      ∧ ∃ stage, ((Climb.start (Level.ofGraph g true)).stages limits 10)[1]? = some stage
        ∧ stage.passes = 1 ∧ stage.Stops limits full.value 1 (detect g { weighted := true } none (.budget 1)) := by
  obtain ⟨g, loaded, -⟩ := Loading.exists_load_junctions .dense
  obtain ⟨counted, -, short⟩ := detect_interrupted g { weighted := true } none 1
  have again : 1 < (optimize ⟨20, 10, none⟩ .always 0 (Level.ofGraph g true)).passes :=
    one_lt_passes_junctions loaded rfl (by decide)
  have second : ((Climb.start (Level.ofGraph g true)).stages ⟨20, 10, none⟩ 10)[1]?
      = some ⟨g.size, .start (Level.ofGraph g true), 1⟩ := Climb.getElem?_stages again
  have more : 1 < (detect g { weighted := true } none .always).value.iterations :=
    counted ▸ (List.getElem?_eq_some_iff.1 second).1
  obtain ⟨stage, here, stops⟩ := short more
  obtain rfl := Option.some.inj (second.symm.trans here)
  exact ⟨g, loaded, more, _, here, rfl, stops⟩

end NetworkAnalysis.Community
