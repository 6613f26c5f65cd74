import NetworkAnalysis.Proofs.Community.Coarsening
import NetworkAnalysis.Proofs.Community.Passes
import NetworkAnalysis.Proofs.Community.Renumbering
import NetworkAnalysis.Proofs.LoadSuccess

/-!
# The modularity that a search reports

The level that a search has come to is a quotient of its first level, by the places of the base nodes. What the
search computes at a small level is therefore the modularity of the assignment of the base nodes (`Climb.Sound`),
and what the passes do at one level they do to that modularity. This adds up over the levels of a run.
-/

namespace NetworkAnalysis

theorem Table.toArray_eq_ofFn {n : Nat} {β : Type} (t : Table n β) :
    t.toArray = Array.ofFn fun u : Fin n => t[u] := by
  apply Array.ext
  · simp [Table.toArray]
  · intro i _ _
    simp [Table.toArray, Table.getElem_eq]

namespace Community

variable {n m : Nat}

/-! ## Assignments of a graph -/

/-- Numbers below the number of nodes are an assignment. -/
theorem readAssignment_ofFn {label : Fin n → Nat} (below : ∀ u, label u < n) :
    ∃ assignment : Assignment n, readAssignment n (Array.ofFn label) = .ok assignment
      ∧ ∀ u v : Fin n, assignment.community[u] = assignment.community[v] ↔ label u = label v := by
  have covers : (Array.ofFn label).size = n := Array.size_ofFn
  have inRange : outOfRange? n (Array.ofFn label) = none := by
    rw [outOfRange?, Array.find?_eq_none]
    rintro ⟨community, u⟩ member
    have here : (Array.ofFn label)[u]? = some community := Array.mem_zipIdx_iff_getElem?.1 member
    obtain ⟨_, rfl⟩ := Array.getElem?_eq_some_iff.1 here
    rw [Array.getElem_ofFn]
    simpa using below _
  unfold readAssignment
  rw [dif_pos covers, inRange]
  refine ⟨_, rfl, fun u v => ?_⟩
  simp [Fin.ext_iff]

/-- Settings are accepted if no cap is zero and weights are loaded where they are asked for. -/
theorem checkSettings_eq_ok_iff {α : Type} [Scalar α] {g : Graph α} {settings : CommunitySettings} :
    checkSettings g settings = .ok ()
      ↔ settings.maxIterations ≠ 0 ∧ settings.maxLevels ≠ 0
        ∧ (settings.weighted = true → g.weighted = true) := by
  unfold checkSettings requirePositive
  by_cases iterations : settings.maxIterations = 0
  · simp [iterations, bind, Except.bind]
  by_cases levels : settings.maxLevels = 0
  · simp [iterations, levels, bind, Except.bind]
  simp only [iterations, levels, if_false, bind, Except.bind]
  cases settings.weighted <;> cases g.weighted <;>
    simp [iterations, levels, pure, Except.pure, throw, throwThe, MonadExceptOf.throw]

/-- The modularity of numbers below the number of nodes. -/
theorem modularity_ofFn {g : Graph Rat} {weighted : Bool} (usable : weighted = true → g.weighted = true)
    {label : Fin g.size → Nat} (below : ∀ u, label u < g.size) :
    modularity g (Array.ofFn label) weighted = .ok ((Level.ofGraph g weighted).quality label) := by
  obtain ⟨assignment, read, shared⟩ := readAssignment_ofFn below
  have accepted : ¬ (weighted && !g.weighted) = true := by
    cases weighted <;> simp_all
  unfold modularity
  rw [read, ← Level.quality_congr _ shared, ← Level.modularity_eq_quality]
  simp only [bind, Except.bind, if_neg accepted]
  rfl

/-- The modularity of single nodes. -/
theorem modularity_range {g : Graph Rat} {weighted : Bool} (usable : weighted = true → g.weighted = true) :
    modularity g (Array.range g.size) weighted
      = .ok ((Level.ofGraph g weighted).quality (id : Fin g.size → Fin g.size)) := by
  have numbers : Array.range g.size = Array.ofFn (Fin.val : Fin g.size → Nat) := by
    apply Array.ext <;> simp
  rw [numbers, modularity_ofFn usable Fin.isLt]
  exact congrArg _ (Level.quality_congr _ fun u v => Fin.ext_iff.symm)

/-! ## What a search knows -/

namespace Climb

/-- The level is a quotient of the base level by the places of the base nodes, and the modularity is that of the
base nodes in their places. The last entry of the list is the modularity, unless there is no entry yet. -/
structure Sound (base : Level n Rat) (c : Climb n m Rat) : Prop where
  quotient : base.Quotient (fun u : Fin n => c.place[u]) c.level
  modularity : c.modularity = base.quality fun u : Fin n => c.place[u]
  bound : m ≤ n
  levels : c.levelModularities.size = c.levels
  last : 0 < c.levels → c.levelModularities.back? = some c.modularity

variable {base : Level n Rat} {c : Climb n m Rat}

theorem modularity_start (base : Level n Rat) :
    (start base).modularity = base.quality (id : Fin n → Fin n) := by
  refine (Level.modularity_eq_quality base _).trans (base.quality_congr fun u v => ?_)
  rw [Table.getElem_ofFn, Table.getElem_ofFn]

theorem sound_start (exact : base.Exact) : (start base).Sound base := by
  have place : (fun u : Fin n => (start base).place[u]) = id :=
    funext fun u => Table.getElem_ofFn id u
  constructor
  case quotient =>
    rw [place]
    exact .refl exact
  case modularity =>
    rw [place]
    exact modularity_start base
  case bound => exact Nat.le_refl n
  case levels => rfl
  case last =>
    intro positive
    exact absurd positive (Nat.lt_irrefl 0)

theorem Sound.rest (h : c.Sound base) (run : LevelRun m Rat) : (c.rest run).Sound base :=
  ⟨h.quotient, h.modularity, h.bound, h.levels, h.last⟩

/-- The next level is a quotient by the communities, and of the base level by the composed places. -/
theorem Sound.next (exact : base.Exact) (h : c.Sound base) (limits : Limits) (run : LevelRun m Rat) :
    (c.next limits run).Sound base := by
  let communities := (renumber run.state.community).community
  have place : (fun u : Fin n => (c.next limits run).place[u]) = fun u : Fin n => communities[c.place[u]] :=
    funext fun u => Table.getElem_map _ c.place u
  constructor
  case quotient =>
    rw [place]
    exact h.quotient.trans (Level.quotient_coarsen c.level communities)
  case modularity =>
    rw [place, ← h.quotient.quality exact fun v : Fin m => communities[v]]
    exact Level.modularity_eq_quality c.level communities
  case bound => exact Nat.le_trans (count_renumber_le _) h.bound
  case levels =>
    show (c.levelModularities.push _).size = c.levels + 1
    rw [Array.size_push, h.levels]
  case last =>
    intro _
    exact Array.back?_push

/-- Before the passes of a level, its nodes are the communities of the base nodes. -/
theorem Sound.quality_id (exact : base.Exact) (h : c.Sound base) :
    c.level.quality (id : Fin m → Fin m) = c.modularity := by
  rw [h.quotient.quality exact, h.modularity]
  rfl

/-- Renumbering and coarsening keep the modularity that the passes have left. -/
theorem modularity_next (limits : Limits) (c : Climb n m Rat) (run : LevelRun m Rat) :
    (c.next limits run).modularity = run.state.quality c.level := by
  have shared := renumber_eq_iff run.state.community
  exact (Level.modularity_eq_quality c.level _).trans (c.level.quality_congr shared)

/-! ## Whole runs -/

/-- A run ends with a search that has every property which the start has and the passes of each level keep. -/
theorem run_optimize_induct {α : Type} [Scalar α] (limits : Limits) (watch : Watch)
    {P : {m : Nat} → Climb n m α → Prop}
    (rest : ∀ {m : Nat} (c : Climb n m α), P c → P (c.rest (optimize limits watch c.polls c.level)))
    (next : ∀ {m : Nat} (c : Climb n m α), P c → P (c.next limits (optimize limits watch c.polls c.level)))
    (left : Nat) (c : Climb n m α) (start : P c) :
    ∃ (k : Nat) (last : Climb n k α) (completed : Bool),
      P last ∧ c.run limits watch left = last.report completed := by
  induction left generalizing m c with
  | zero => exact ⟨m, c, true, start, rfl⟩
  | succ left ih =>
    unfold run
    dsimp only
    split
    · exact ⟨m, _, _, rest c start, rfl⟩
    · split
      · exact ih _ (next c start)
      · exact ⟨_, _, false, next c start, rfl⟩

/-- What any passes at a level keep, a run keeps. -/
theorem run_induct {α : Type} [Scalar α] (limits : Limits) (watch : Watch)
    {P : {m : Nat} → Climb n m α → Prop}
    (rest : ∀ {m : Nat} (c : Climb n m α) (run : LevelRun m α), P c → P (c.rest run))
    (next : ∀ {m : Nat} (c : Climb n m α) (run : LevelRun m α), P c → P (c.next limits run))
    (left : Nat) (c : Climb n m α) (start : P c) :
    ∃ (k : Nat) (last : Climb n k α) (completed : Bool),
      P last ∧ c.run limits watch left = last.report completed :=
  run_optimize_induct limits watch (fun c => rest c _) (fun c => next c _) left c start

/-- The numbers of passes at the levels of a run, the last level included if nothing moved there. -/
def passCounts {α : Type} [Scalar α] (limits : Limits) (watch : Watch) :
    (left : Nat) → {m : Nat} → Climb n m α → List Nat
  | 0, _, _ => []
  | left + 1, _, c =>
    let levelRun := optimize limits watch c.polls c.level
    if levelRun.moves = 0 then [levelRun.passes]
    else
      levelRun.passes ::
        if levelRun.completed then passCounts limits watch left (c.next limits levelRun) else []

/-- The passes of all levels are the iterations of the report. -/
theorem iterations_run {α : Type} [Scalar α] (limits : Limits) (watch : Watch) (left : Nat)
    (c : Climb n m α) :
    (c.run limits watch left).value.iterations = c.iterations + (c.passCounts limits watch left).sum := by
  induction left generalizing m c with
  | zero => rfl
  | succ left ih =>
    unfold run passCounts
    dsimp only
    split
    · rw [List.sum_singleton]
      rfl
    · rw [List.sum_cons]
      split
      · rw [ih, ← Nat.add_assoc]
        rfl
      · rfl

/-- Each value is related to the one before it, by the count that belongs to it. -/
inductive Successive (R : Rat → Nat → Rat → Prop) : Rat → List Rat → List Nat → Prop
  /-- No value is left. -/
  | nil (before : Rat) (counts : List Nat) : Successive R before [] counts
  /-- One more value, with the count of its level. -/
  | cons {before value : Rat} {count : Nat} {values : List Rat} {counts : List Nat}
    (first : R before count value) (rest : Successive R value values counts) :
    Successive R before (value :: values) (count :: counts)

theorem Successive.isChain {before : Rat} {values : List Rat} {counts : List Nat}
    (h : Successive (fun before _ value => before < value) before values counts) :
    (before :: values).IsChain (· < ·) := by
  induction h with
  | nil before counts => exact .singleton before
  | cons first _ ih => exact .cons_cons first ih

/-- What the passes of any one level do to the modularity they do at all levels of a run, one after the other. -/
theorem successive_run (limits : Limits) (watch : Watch) {P : {m : Nat} → Climb n m Rat → Prop}
    {R : Rat → Nat → Rat → Prop}
    (keeps : ∀ {m : Nat} (c : Climb n m Rat) (run : LevelRun m Rat), P c → P (c.next limits run))
    (step : ∀ {m : Nat} (c : Climb n m Rat), P c →
      let run := optimize limits watch c.polls c.level
      run.moves ≠ 0 → R c.modularity run.passes (c.next limits run).modularity)
    (left : Nat) (c : Climb n m Rat) (start : P c) :
    ∃ values : List Rat,
      (c.run limits watch left).value.levelModularities.toList = c.levelModularities.toList ++ values
        ∧ Successive R c.modularity values (c.passCounts limits watch left) := by
  -- The list of a run goes on from the list of the search, so that the induction is on the levels that are left,
  -- for searches among any number of nodes.
  induction left generalizing m c with
  | zero => exact ⟨[], (List.append_nil _).symm, .nil _ _⟩
  | succ left ih =>
    have first := step c start
    have kept := keeps c (optimize limits watch c.polls c.level) start
    unfold run passCounts
    dsimp only at first ⊢
    split
    · exact ⟨[], (List.append_nil _).symm, .nil _ _⟩
    · next moved =>
      have pushed : (c.next limits (optimize limits watch c.polls c.level)).levelModularities.toList
          = c.levelModularities.toList ++ [(c.next limits (optimize limits watch c.polls c.level)).modularity] :=
        Array.toList_push
      split
      · obtain ⟨values, listed, later⟩ := ih _ kept
        refine ⟨_, ?_, .cons (first moved) later⟩
        rw [listed, pushed, List.append_assoc]
        rfl
      · exact ⟨_, pushed, .cons (first moved) (.nil _ _)⟩

/-- A sequential level at which something moves raises the modularity. -/
theorem lt_modularity_next (exact : base.Exact) (h : c.Sound base) (symmetric : c.level.Symmetric)
    {limits : Limits} (sequential : limits.workers = none) {watch : Watch}
    (moved : (optimize limits watch c.polls c.level).moves ≠ 0) :
    c.modularity < (c.next limits (optimize limits watch c.polls c.level)).modularity := by
  have climbed := optimize_climbs symmetric sequential watch c.polls
  have moves : (0 : Rat) < (optimize limits watch c.polls c.level).moves :=
    Nat.cast_pos.2 (Nat.pos_of_ne_zero moved)
  dsimp only at climbed
  rw [h.quality_id exact] at climbed
  rw [modularity_next]
  rw [Scalar.slack_rat] at climbed
  linarith

/-- A level with partitioned passes loses no more than the slack with each of them. -/
theorem sub_le_modularity_next (exact : base.Exact) (h : c.Sound base) {limits : Limits} {workers : Nat}
    (partitioned : limits.workers = some workers) (watch : Watch) :
    let run := optimize limits watch c.polls c.level
    c.modularity - 1 / 1000000000000 * run.passes ≤ (c.next limits run).modularity := by
  have kept := optimize_loses c.level partitioned watch c.polls
  dsimp only at kept ⊢
  rw [h.quality_id exact] at kept
  rw [modularity_next]
  exact kept

/-- Sequential levels raise the modularity one after the other. -/
theorem pairwise_run (exact : base.Exact) (symmetric : base.Symmetric) {limits : Limits}
    (sequential : limits.workers = none) (watch : Watch) (left : Nat) :
    ((start base).modularity
      :: ((start base).run limits watch left).value.levelModularities.toList).Pairwise (· < ·) := by
  have levels : ∀ {m : Nat} (c : Climb n m Rat) (run : LevelRun m Rat), c.Sound base ∧ c.level.Symmetric →
      (c.next limits run).Sound base ∧ (c.next limits run).level.Symmetric :=
    fun _ run h => ⟨h.1.next exact limits run, h.2.coarsen _⟩
  obtain ⟨values, listed, rising⟩ := successive_run limits watch levels
    (R := fun before _ value => before < value)
    (fun _ h moved => lt_modularity_next exact h.1 h.2 sequential moved)
    left (start base) ⟨sound_start exact, symmetric⟩
  rw [listed]
  exact List.isChain_iff_pairwise.1 rising.isChain

/-- Partitioned levels lower the modularity by no more than the slack for each of their passes. -/
theorem successive_partitioned (exact : base.Exact) {limits : Limits} {workers : Nat}
    (partitioned : limits.workers = some workers) (watch : Watch) (left : Nat) :
    Successive (fun before count value => before - 1 / 1000000000000 * count ≤ value) (start base).modularity
      ((start base).run limits watch left).value.levelModularities.toList
      ((start base).passCounts limits watch left) := by
  obtain ⟨values, listed, kept⟩ := successive_run limits watch (P := fun c => c.Sound base)
    (R := fun before count value => before - 1 / 1000000000000 * count ≤ value)
    (fun _ run h => h.next exact limits run)
    (fun _ h _ => sub_le_modularity_next exact h partitioned watch)
    left (start base) (sound_start exact)
  rw [listed]
  exact kept

end Climb

/-! ## Reports -/

/-- The modularity that a search reports is that of the communities that it returns, also if it was stopped. It
is the last entry of the list of modularities, which has one for each level. -/
theorem detect_reports_modularity {g : Graph Rat} {settings : CommunitySettings}
    (accepted : checkSettings g settings = .ok ()) (workers : Option Nat) (watch : Watch) :
    let found := (detect g settings workers watch).value
    modularity g found.assignment.toArray settings.weighted = .ok found.modularity
      ∧ (0 < found.levels → found.levelModularities.back? = some found.modularity)
      ∧ found.levelModularities.size = found.levels := by
  let base := Level.ofGraph g settings.weighted
  let limits : Limits := ⟨settings.maxIterations, settings.maxLevels, workers⟩
  have exact : base.Exact := g.exact_level settings.weighted
  obtain ⟨k, last, completed, sound, run⟩ := Climb.run_induct limits watch
    (P := fun c => c.Sound base) (fun _ run h => h.rest run) (fun _ run h => h.next exact limits run)
    settings.maxLevels (.start base) (Climb.sound_start exact)
  have found : (detect g settings workers watch).value = last.found :=
    congrArg (fun report => report.value) run
  -- The numbers of the last level are accepted as communities because no level has more nodes than the graph.
  have below : ∀ u : Fin g.size, (last.place.map Fin.val)[u] < g.size := by
    intro u
    rw [Table.getElem_map]
    exact Nat.lt_of_lt_of_le last.place[u].isLt sound.bound
  have shared : ∀ u v : Fin g.size, (last.place.map Fin.val)[u] = (last.place.map Fin.val)[v]
      ↔ last.place[u] = last.place[v] := by
    intro u v
    rw [Table.getElem_map, Table.getElem_map, Fin.ext_iff]
  dsimp only
  rw [found]
  refine ⟨?_, sound.last, sound.levels⟩
  show modularity g (last.place.map Fin.val).toArray settings.weighted = .ok last.modularity
  rw [Table.toArray_eq_ofFn, modularity_ofFn (checkSettings_eq_ok_iff.1 accepted).2.2 below,
    Level.quality_congr _ shared, sound.modularity]

/-- Two workers that are stopped before their second pass report what they have reached among the junctions. -/
theorem detect_reports_modularity_junctions : ∃ g : Graph Rat,
    Loading.loadInto .dense Loading.fiveByDefault Loading.junctions = .ok g
      ∧ checkSettings g { weighted := true } = .ok ()
      ∧ let found := (detect g { weighted := true } (some 2) (.budget 1)).value
        modularity g found.assignment.toArray true = .ok found.modularity
          ∧ (0 < found.levels → found.levelModularities.back? = some found.modularity)
          ∧ found.levelModularities.size = found.levels := by
  obtain ⟨g, loaded, -⟩ := Loading.exists_load_junctions .dense
  have weighted : g.weighted = true := (Loading.stored_of_loadInto loaded).weighted_eq
  have accepted : checkSettings g { weighted := true } = .ok () :=
    checkSettings_eq_ok_iff.2 ⟨by decide, by decide, fun _ => weighted⟩
  exact ⟨g, loaded, accepted, detect_reports_modularity accepted (some 2) (.budget 1)⟩

/-- The numbers of passes at the levels of a search. -/
def passCounts {α : Type} [Scalar α] (g : Graph α) (settings : CommunitySettings) (workers : Option Nat)
    (watch : Watch) : List Nat :=
  (Climb.start (.ofGraph g settings.weighted)).passCounts
    { maxIterations := settings.maxIterations, maxLevels := settings.maxLevels, workers } watch
    settings.maxLevels

/-- Sequential passes raise the modularity from level to level, above that of single nodes from the first one on.
Partitioned passes lower it by no more than the slack each. -/
theorem detect_never_loses {g : Graph Rat} (loaded : g.Loaded) {settings : CommunitySettings}
    (accepted : checkSettings g settings = .ok ()) (watch : Watch) :
    ∃ singletons : Rat, modularity g (Array.range g.size) settings.weighted = .ok singletons
      ∧ (singletons :: (detect g settings none watch).value.levelModularities.toList).Pairwise (· < ·)
      ∧ ∀ workers : Nat,
        let found := (detect g settings (some workers) watch).value
        let passes := passCounts g settings (some workers) watch
        passes.sum = found.iterations
          ∧ Climb.Successive (fun before count value => before - 1 / 1000000000000 * count ≤ value)
            singletons found.levelModularities.toList passes := by
  let base := Level.ofGraph g settings.weighted
  have exact : base.Exact := g.exact_level settings.weighted
  have symmetric : base.Symmetric := loaded.symmetric_level settings.weighted
  have singletons := modularity_range (checkSettings_eq_ok_iff.1 accepted).2.2
  rw [← Climb.modularity_start] at singletons
  refine ⟨_, singletons, Climb.pairwise_run exact symmetric rfl watch settings.maxLevels, ?_⟩
  intro workers
  let limits : Limits := ⟨settings.maxIterations, settings.maxLevels, some workers⟩
  have iterations := (Climb.start base).iterations_run limits watch settings.maxLevels
  constructor
  · exact (iterations.trans (Nat.zero_add _)).symm
  · exact Climb.successive_partitioned exact rfl watch settings.maxLevels

/-- The junctions are searched with two workers and without, until they are stopped before the fourth pass. -/
theorem detect_never_loses_junctions : ∃ (g : Graph Rat) (singletons : Rat),
    Loading.loadInto .huge Loading.fiveByDefault Loading.junctions = .ok g ∧ g.Loaded
      ∧ checkSettings g { weighted := true } = .ok ()
      ∧ modularity g (Array.range g.size) true = .ok singletons
      ∧ (singletons :: (detect g { weighted := true } none (.budget 3)).value.levelModularities.toList).Pairwise
        (· < ·)
      ∧ Climb.Successive (fun before count value => before - 1 / 1000000000000 * count ≤ value) singletons
        (detect g { weighted := true } (some 2) (.budget 3)).value.levelModularities.toList
        (passCounts g { weighted := true } (some 2) (.budget 3)) := by
  obtain ⟨g, loaded, -⟩ := Loading.exists_load_junctions .huge
  have isLoaded : g.Loaded := ⟨_, _, _, loaded⟩
  have weighted : g.weighted = true := (Loading.stored_of_loadInto loaded).weighted_eq
  have accepted : checkSettings g { weighted := true } = .ok () :=
    checkSettings_eq_ok_iff.2 ⟨by decide, by decide, fun _ => weighted⟩
  obtain ⟨singletons, known, rising, partitioned⟩ := detect_never_loses isLoaded accepted (.budget 3)
  exact ⟨g, singletons, loaded, isLoaded, accepted, known, rising, (partitioned 2).2⟩

end Community

end NetworkAnalysis
