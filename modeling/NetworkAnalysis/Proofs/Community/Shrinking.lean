import NetworkAnalysis.Proofs.Community.Passes
import NetworkAnalysis.Proofs.Community.Renumbering
import NetworkAnalysis.Proofs.Community.Spreading

/-!
# Levels shrink

A pass gives out no community that has no members, so that a community without members stays without. The first pass
that moves something leaves such a community behind: in a sequential pass it is that of the first node that moves, and
in a partitioned one nodes move only to smaller communities, because all of them are single, so that the communities
cannot be those of all nodes again. A level at which something moves therefore has fewer communities than nodes, for
any arithmetic of the weights (`count_lt_of_moved`). Each level of a run is smaller than the one before, and the run
ends by itself before it has climbed as many levels as there are nodes.
-/

namespace NetworkAnalysis.Community

variable {n m : Nat}

/-! ## Communities without members -/

/-- Places that are nowhere above, and somewhere below, their numbers leave a number out. -/
theorem exists_unused_of_lt (place : Fin n → Fin n) (below : ∀ u, place u ≤ u) {v : Fin n} (lower : place v < v) :
    ∃ c, ∀ u, place u ≠ c := by
  -- The highest node that has gone down leaves its number: nodes above it stay, and the others do not come up to it.
  let lowered := Finset.univ.filter fun u => place u < u
  have nonempty : lowered.Nonempty := ⟨v, Finset.mem_filter.2 ⟨Finset.mem_univ v, lower⟩⟩
  let highest := lowered.max' nonempty
  have goes : place highest < highest := (Finset.mem_filter.1 (lowered.max'_mem nonempty)).2
  refine ⟨highest, fun u here => ?_⟩
  rcases lt_or_eq_of_le (below u) with down | stays
  · have listed : u ∈ lowered := Finset.mem_filter.2 ⟨Finset.mem_univ u, down⟩
    have above : u ≤ highest := lowered.le_max' u listed
    exact absurd (here ▸ down) (not_lt.2 above)
  · have same : u = highest := stays.symm.trans here
    rw [← same, stays] at goes
    exact lt_irrefl u goes

theorem community_singletons {α : Type} (level : Level n α) (u : Fin n) :
    (MoveState.singletons level).community[u] = u :=
  Table.getElem_ofFn id u

variable {α : Type} [Scalar α]

/-- Either nothing has moved from where the level started, or some community has no members. -/
def MoveState.Thinned (level : Level n α) (s : MoveState n α) (moves : Nat) : Prop :=
  (moves = 0 ∧ s = .singletons level) ∨ ∃ c : Fin n, ∀ u : Fin n, s.community[u] ≠ c

/-- Among single nodes, proposals lead to smaller communities. -/
theorem lt_of_proposal_singletons {level : Level n α} {move : Fin n × Fin n}
    (proposed : proposal level (.singletons level) move.1 = some move) : move.2 < move.1 := by
  obtain ⟨target, leaves, apart⟩ := eq_of_proposal proposed
  have taken : move.2 = bestCommunity level (.singletons level) move.1 := congrArg Prod.snd target
  have size : ∀ u : Fin n, (MoveState.singletons level).size[u] = 1 := fun u => Table.getElem_replicate 1 u
  rw [← taken, community_singletons] at leaves apart
  simp only [swapsSingletons, size, beq_self_eq_true, Bool.true_and, decide_eq_false_iff_not, not_lt] at apart
  exact lt_of_le_of_ne apart leaves

theorem sequentialPass_thinned (level : Level n α) :
    (sequentialPass level (.singletons level)).1.Thinned level (sequentialPass level (.singletons level)).2 := by
  refine sequentialPass_induct (P := fun s moves => s.Thinned level moves) (.inl ⟨rfl, rfl⟩) ?_
  rintro s moves node (⟨-, rfl⟩ | ⟨c, unused⟩) leaves
  -- The first node that moves leaves its own community empty, and later on an empty one is never moved to.
  · rw [community_singletons] at leaves
    refine .inr ⟨node, fun u => ?_⟩
    rw [MoveState.community_relocate]
    split
    · exact leaves
    · next other =>
      rw [community_singletons]
      exact Ne.symm other
  · obtain ⟨v, -, here⟩ := exists_of_leaves leaves
    refine .inr ⟨c, fun u => ?_⟩
    rw [MoveState.community_relocate]
    split
    · rw [← here]
      exact unused v
    · exact unused u

theorem partitionedPass_thinned (level : Level n α) (workers : Nat) :
    (partitionedPass level workers (.singletons level)).1.Thinned level
      (partitionedPass level workers (.singletons level)).2 := by
  rcases partitionedPass_cases level workers (.singletons level) with same | ⟨moves, proposes, proposed, carried⟩
  · rw [same]
    exact .inl ⟨rfl, rfl⟩
  · rw [carried]
    let after := (moves.foldl (carryOut level) (.singletons level)).community
    have lower : ∀ move ∈ moves, move.2 < move.1 :=
      fun move member => lt_of_proposal_singletons (proposed move member)
    have carriedOut := community_carriedOut level moves (.singletons level)
    have below : ∀ u : Fin n, after[u] ≤ u := by
      intro u
      rcases carriedOut u with ⟨-, kept⟩ | ⟨move, member, here, there⟩
      · exact le_of_eq (kept.trans (community_singletons level u))
      · exact le_of_lt (there.trans_lt (here ▸ lower move member))
    obtain ⟨move, first⟩ := List.exists_mem_of_ne_nil moves proposes
    have gone : after[move.1] < move.1 := by
      rcases carriedOut move.1 with ⟨others, -⟩ | ⟨last, member, here, there⟩
      · exact absurd rfl (others move first)
      · exact there.trans_lt (here ▸ lower last member)
    exact .inr (exists_unused_of_lt (fun u => after[u]) below gone)

/-- No pass moves a node into a community without members. -/
theorem MoveState.Thinned.pass {level : Level n α} {s : MoveState n α} {moves : Nat} (h : s.Thinned level moves)
    (limits : Limits) :
    (limits.pass level s).1.Thinned level (moves + (limits.pass level s).2) := by
  rcases h with ⟨rfl, rfl⟩ | ⟨c, unused⟩
  · rw [Nat.zero_add]
    unfold Limits.pass
    split
    · exact sequentialPass_thinned level
    · exact partitionedPass_thinned level _
  · exact .inr ⟨c, pass_spreads (P := fun _ d => d ≠ c) (fun _ _ _ _ other => other) limits unused⟩

/-! ## Levels -/

variable {limits : Limits} {watch : Watch} {polls : Nat} {level : Level n α}

/-- When something has moved at a level, a community has no members. -/
theorem exists_unused (moved : (optimize limits watch polls level).moves ≠ 0) :
    ∃ c : Fin n, ∀ u : Fin n, (optimize limits watch polls level).state.community[u] ≠ c := by
  have pass : ∀ (s : MoveState n α) (_ moves : Nat), s.Thinned level moves →
      (limits.pass level s).1.Thinned level (moves + (limits.pass level s).2) := fun _ _ _ h => h.pass limits
  have thinned := optimize_induct (P := fun s _ moves => s.Thinned level moves) (.inl ⟨rfl, rfl⟩) pass watch polls
  exact thinned.resolve_left fun nothing => moved nothing.1

/-- A level at which something moves has fewer communities than nodes. -/
theorem count_lt_of_moved (moved : (optimize limits watch polls level).moves ≠ 0) :
    (renumber (optimize limits watch polls level).state.community).count < n := by
  obtain ⟨c, unused⟩ := exists_unused moved
  exact count_renumber_lt unused

theorem count_pos_of_moved (moved : (optimize limits watch polls level).moves ≠ 0) :
    0 < (renumber (optimize limits watch polls level).state.community).count := by
  obtain ⟨c, -⟩ := exists_unused moved
  exact ((renumber (optimize limits watch polls level).state.community).community[c]).pos

namespace Climb

/-! ## Sizes of levels -/

/-- Every node of the level stands for base nodes. -/
def Onto (c : Climb n m α) : Prop :=
  ∀ d : Fin m, ∃ u : Fin n, c.place[u] = d

theorem onto_start (level : Level n α) : (start level).Onto :=
  fun d => ⟨d, Table.getElem_ofFn id d⟩

theorem Onto.next {c : Climb n m α} (h : c.Onto) (limits : Limits) (run : LevelRun m α) :
    (c.next limits run).Onto := by
  intro label
  obtain ⟨d, here⟩ := renumber_onto run.state.community label
  obtain ⟨u, there⟩ := h d
  have place : (c.next limits run).place[u] = (renumber run.state.community).community[c.place[u]] :=
    Table.getElem_map _ c.place u
  exact ⟨u, by rw [place, there, here]⟩

/-- The numbers of nodes of the levels that a run counts, and at the end the number of communities that it has found.
Each number but the first is the number of communities that were found at the level before. -/
def sizes (limits : Limits) (watch : Watch) : (left : Nat) → {m : Nat} → Climb n m α → List Nat
  | 0, m, _ => [m]
  | left + 1, m, c =>
    let levelRun := optimize limits watch c.polls c.level
    if levelRun.moves = 0 then [m]
    else
      m :: if levelRun.completed then sizes limits watch left (c.next limits levelRun)
        else [(renumber levelRun.state.community).count]

theorem head?_sizes (limits : Limits) (watch : Watch) (left : Nat) (c : Climb n m α) :
    (c.sizes limits watch left).head? = some m := by
  cases left with
  | zero => rfl
  | succ left =>
    unfold sizes
    dsimp only
    split <;> rfl

theorem getLast?_sizes (limits : Limits) (watch : Watch) (left : Nat) {c : Climb n m α} (onto : c.Onto) :
    (c.sizes limits watch left).getLast? = some (c.run limits watch left).value.count := by
  induction left generalizing m c with
  | zero => exact congrArg some (count_of_onto onto).symm
  | succ left ih =>
    have onto' := onto.next limits (optimize limits watch c.polls c.level)
    unfold sizes run
    dsimp only
    split
    · exact congrArg some (count_of_onto onto).symm
    · split
      · rw [List.getLast?_cons, ih onto']
        rfl
      · exact congrArg some (count_of_onto onto').symm

theorem length_sizes (limits : Limits) (watch : Watch) (left : Nat) (c : Climb n m α) :
    c.levels + (c.sizes limits watch left).length = (c.run limits watch left).value.levels + 1 := by
  induction left generalizing m c with
  | zero => rfl
  | succ left ih =>
    have later := ih (c.next limits (optimize limits watch c.polls c.level))
    have counted : (c.next limits (optimize limits watch c.polls c.level)).levels = c.levels + 1 := rfl
    unfold sizes run
    dsimp only
    split
    · rfl
    · split
      · rw [List.length_cons]
        omega
      · rfl

/-- Every level is smaller than the one before. -/
theorem isChain_sizes (limits : Limits) (watch : Watch) (left : Nat) (c : Climb n m α) :
    (c.sizes limits watch left).IsChain (· > ·) := by
  induction left generalizing m c with
  | zero => exact .singleton m
  | succ left ih =>
    have later := ih (c.next limits (optimize limits watch c.polls c.level))
    have first := head?_sizes limits watch left (c.next limits (optimize limits watch c.polls c.level))
    unfold sizes
    dsimp only
    split
    · exact .singleton m
    · next moved =>
      have fewer := count_lt_of_moved moved
      split
      · refine List.isChain_cons.2 ⟨fun size here => ?_, later⟩
        rw [first] at here
        obtain rfl := Option.some.inj here
        exact fewer
      · exact .cons_cons fewer (.singleton _)

/-- As many levels as a run climbs, as many communities are fewer in the end than nodes at the start. -/
theorem levels_add_count_le (limits : Limits) (watch : Watch) (left : Nat) {c : Climb n m α} (onto : c.Onto) :
    (c.run limits watch left).value.levels + (c.run limits watch left).value.count ≤ c.levels + m := by
  induction left generalizing m c with
  | zero => exact Nat.add_le_add_left (Nat.le_of_eq (count_of_onto onto)) _
  | succ left ih =>
    have onto' := onto.next limits (optimize limits watch c.polls c.level)
    have later := ih onto'
    have counted : (c.next limits (optimize limits watch c.polls c.level)).levels = c.levels + 1 := rfl
    unfold run
    dsimp only
    split
    · exact Nat.add_le_add_left (Nat.le_of_eq (count_of_onto onto)) _
    · next moved =>
      have fewer := count_lt_of_moved moved
      split
      · omega
      · have found : ((c.next limits (optimize limits watch c.polls c.level)).report false).value.count
            = (renumber (optimize limits watch c.polls c.level).state.community).count := count_of_onto onto'
        rw [found]
        show c.levels + 1 + _ ≤ _
        omega

/-- A run that may climb as many levels as it has nodes climbs fewer. -/
theorem levels_lt_of_room (limits : Limits) (watch : Watch) {left : Nat} (positive : 0 < left) {c : Climb n m α}
    (onto : c.Onto) (room : m ≤ left) : (c.run limits watch left).value.levels < c.levels + left := by
  have fewer := c.levels_add_count_le limits watch left onto
  rcases Nat.eq_zero_or_pos m with rfl | inhabited
  · omega
  · obtain ⟨u, -⟩ := onto ⟨0, inhabited⟩
    let assignment := (c.run limits watch left).value.assignment
    have counted : assignment[u] < (c.run limits watch left).value.count :=
      lt_countCommunities (Table.getElem_mem_toList assignment u)
    omega

/-! ## Runs without a cap -/

/-- With room for as many levels as there are nodes, a run ends by itself, so that more room does not matter. -/
theorem run_eq_of_room (limits : Limits) (watch : Watch) {left left' : Nat} (c : Climb n m α)
    (room : max 1 m ≤ left) (room' : max 1 m ≤ left') :
    c.run limits watch left = c.run limits watch left' := by
  induction left generalizing m c left' with
  | zero => omega
  | succ left ih =>
    obtain ⟨left', rfl⟩ : ∃ k, left' = k + 1 := ⟨left' - 1, by omega⟩
    unfold run
    dsimp only
    split
    · rfl
    · next moved =>
      have fewer := count_lt_of_moved moved
      have inhabited := count_pos_of_moved moved
      split
      · exact ih _ (by omega) (by omega)
      · rfl

/-- Nothing but what is announced depends on the cap as a number. -/
theorem run_relimited {l k : Limits} (iterations : l.maxIterations = k.maxIterations) (workers : l.workers = k.workers)
    (watch : Watch) (left : Nat) (c : Climb n m α) (progress : Array α) :
    let first := c.run l watch left
    let second := ({ c with progress } : Climb n m α).run k watch left
    first.value = second.value ∧ first.completed = second.completed ∧ first.polls = second.polls := by
  induction left generalizing m c progress with
  | zero => exact ⟨rfl, rfl, rfl⟩
  | succ left ih =>
    have pass : ∀ state, l.pass c.level state = k.pass c.level state := by
      intro state
      unfold Limits.pass
      rw [workers]
    have same := optimize_congr iterations pass watch c.polls
    unfold run
    dsimp only
    rw [same]
    split
    · exact ⟨rfl, rfl, rfl⟩
    · split
      · exact ih _ _
      · exact ⟨rfl, rfl, rfl⟩

end Climb

/-! ## Searches -/

/-- The numbers of nodes of the levels of a search, and at the end the number of communities that it finds. -/
def levelSizes (g : Graph α) (settings : CommunitySettings) (workers : Option Nat) (watch : Watch) : List Nat :=
  (Climb.start (.ofGraph g settings.weighted)).sizes
    { maxIterations := settings.maxIterations, maxLevels := settings.maxLevels, workers } watch settings.maxLevels

/-- Every level that a search counts has fewer communities than nodes, so that there are no more levels than nodes that
lose their own community. With a cap of as many levels as nodes, the search ends below its cap, and a higher cap changes
nothing but the fractions that are announced. -/
theorem detect_shrinks (g : Graph α) (settings : CommunitySettings) (workers : Option Nat) (watch : Watch) :
    let found := (detect g settings workers watch).value
    let sizes := levelSizes g settings workers watch
    let capped := fun maxLevels : Nat => detect g { settings with maxLevels } workers watch
    sizes.head? = some g.size ∧ sizes.getLast? = some found.count ∧ sizes.length = found.levels + 1
      ∧ sizes.Pairwise (· > ·)
      ∧ found.levels + found.count ≤ g.size
      ∧ ∀ a b : Nat, max 1 g.size ≤ a → max 1 g.size ≤ b →
        (capped a).value.levels < a ∧ (capped a).value = (capped b).value
          ∧ (capped a).completed = (capped b).completed ∧ (capped a).polls = (capped b).polls := by
  let start := Climb.start (Level.ofGraph g settings.weighted)
  let limits : Nat → Limits := fun maxLevels => ⟨settings.maxIterations, maxLevels, workers⟩
  have onto : start.Onto := Climb.onto_start _
  have length := start.length_sizes (limits settings.maxLevels) watch settings.maxLevels
  have fewer := start.levels_add_count_le (limits settings.maxLevels) watch settings.maxLevels onto
  refine ⟨start.head?_sizes _ watch _, Climb.getLast?_sizes _ watch _ onto, ?_, ?_, ?_, fun a b roomy roomy' => ?_⟩
  · exact (Nat.zero_add _).symm.trans length
  · exact List.isChain_iff_pairwise.1 (start.isChain_sizes _ watch _)
  · exact fewer.trans_eq (Nat.zero_add _)
  · have positive : 0 < a := by omega
    have below := Climb.levels_lt_of_room (limits a) watch positive onto (by omega)
    have room := start.run_eq_of_room (limits a) watch roomy roomy'
    obtain ⟨value, completed, polls⟩ := Climb.run_relimited (l := limits a) (k := limits b) rfl rfl watch b start #[]
    refine ⟨below.trans_eq (Nat.zero_add a), ?_⟩
    show (start.run (limits a) watch a).value = (start.run (limits b) watch b).value
      ∧ (start.run (limits a) watch a).completed = (start.run (limits b) watch b).completed
      ∧ (start.run (limits a) watch a).polls = (start.run (limits b) watch b).polls
    rw [room]
    exact ⟨value, completed, polls⟩

/-- Four levels are room enough for two workers among the four junctions. -/
theorem detect_shrinks_junctions : ∃ g : Graph Rat,
    Loading.loadInto .huge Loading.fiveByDefault Loading.junctions = .ok g ∧ max 1 g.size ≤ 4 ∧ max 1 g.size ≤ 10
      ∧ let found := (detect g { weighted := true } (some 2) (.budget 3)).value
        let roomy := (detect g { weighted := true, maxLevels := 4 } (some 2) (.budget 3)).value
        (levelSizes g { weighted := true } (some 2) (.budget 3)).Pairwise (· > ·)
          ∧ found.levels + found.count ≤ g.size ∧ roomy.levels < 4 ∧ roomy = found := by
  obtain ⟨g, loaded, labels⟩ := Loading.exists_load_junctions .huge
  have four : g.size = 4 := congrArg List.length labels
  have room : max 1 g.size ≤ 4 := by omega
  have room' : max 1 g.size ≤ 10 := by omega
  obtain ⟨-, -, -, shrinking, fewer, uncapped⟩ := detect_shrinks g { weighted := true } (some 2) (.budget 3)
  obtain ⟨below, same, -, -⟩ := uncapped 4 10 room room'
  exact ⟨g, loaded, room, room', shrinking, fewer, below, same⟩

end NetworkAnalysis.Community
