import NetworkAnalysis.Proofs.Community.Settling

/-!
# The choice of a community

The best community for a node is found by going through the communities around it once, with a candidate in hand that
is given up only for one that is better by more than the slack. Many small improvements in a row cannot take the place
of a large one: the gain in hand never falls, so that nothing that was passed over earlier is better than the last
candidate by more than the slack (`foldl_better_nearly_best`). The gains do not depend on the order of the entries of
the node, nor on what the table was used for before (`Used.clean`).
-/

namespace NetworkAnalysis.Community

variable {n : Nat}

/-! ## Tables in use -/

namespace Scratch

/-- The tables that choices leave behind, whatever levels, states and nodes they were made for. -/
inductive Used {α : Type} [Scalar α] : Scratch n α → Prop where
  /-- No choice was made with the table. -/
  | fresh : Used fresh
  /-- One more choice was made. -/
  | best {s : Scratch n α} (earlier : Used s) (level : Level n α) (state : MoveState n α) (node : Fin n) :
    Used (s.best level state node).2

theorem Used.clean {α : Type} [Scalar α] {s : Scratch n α} (used : s.Used) : s.Clean := by
  induction used with
  | fresh => exact clean_fresh
  | best _ level state node ih => exact ih.best level state node

/-! ## Candidates -/

/-- Whatever is compared, the gain in hand at the end falls short of no gain that was met by more than the slack, and
of that at the start not at all. -/
theorem foldl_better_nearly_best (s : Scratch n Rat) (total : Table n Rat) (degree whole : Rat) {slack : Rat}
    (nonnegative : 0 ≤ slack) (candidates : List (Fin n)) (start : Fin n × Rat) :
    let best := candidates.foldl (s.better total degree whole slack) start
    start.2 ≤ best.2 ∧ ∀ c ∈ candidates, gain s.weight[c] total[c] degree whole ≤ best.2 + slack := by
  induction candidates generalizing start with
  | nil => exact ⟨le_rfl, fun c outside => absurd outside List.not_mem_nil⟩
  | cons candidate rest ih =>
    obtain ⟨later, others⟩ := ih (s.better total degree whole slack start candidate)
    dsimp only
    rw [List.foldl_cons, List.forall_mem_cons]
    by_cases improves : start.2 + slack < gain s.weight[candidate] total[candidate] degree whole
    · have step : s.better total degree whole slack start candidate
          = (candidate, gain s.weight[candidate] total[candidate] degree whole) := if_pos improves
      rw [step] at later others ⊢
      exact ⟨by linarith, by linarith, others⟩
    · have step : s.better total degree whole slack start candidate = start := if_neg improves
      rw [step] at later others ⊢
      exact ⟨later, by linarith, others⟩

end Scratch

/-! ## Gains -/

/-- What a node gains in a community: the weight of its entries into the community, less the weight to expect there from
the degrees of the other nodes in it. -/
def MoveState.gainIn (state : MoveState n Rat) (level : Level n Rat) (node c : Fin n) : Rat :=
  ((level.rows[node]).map fun entry => if state.community[entry.1] = c then entry.2 else 0).sum
    - (state.total[c] - if c = state.community[node] then level.degrees[node] else 0) * level.degrees[node]
      / level.total

section Gains

variable {level : Level n Rat} {state : MoveState n Rat} {node c : Fin n}

theorem gain_current :
    Scratch.gain (Scratch.fresh.collect state.community level.rows[node]).weight[state.community[node]]
        (state.total[state.community[node]] - level.degrees[node]) level.degrees[node] level.total
      = state.gainIn level node state.community[node] := by
  rw [MoveState.gainIn, if_pos rfl, Scratch.gain, Scratch.weight_collect,
    Level.sum_entries _ fun v : Fin n => state.community[v] = state.community[node]]

theorem gain_around (other : c ≠ state.community[node]) :
    Scratch.gain (Scratch.fresh.collect state.community level.rows[node]).weight[c] state.total[c] level.degrees[node]
        level.total
      = state.gainIn level node c := by
  rw [MoveState.gainIn, if_neg other, sub_zero, Scratch.gain, Scratch.weight_collect,
    Level.sum_entries _ fun v : Fin n => state.community[v] = c]

/-- The gain in hand at the end is that of the chosen community, which is the current one or one around the node. -/
theorem choose_nearly_best (state : MoveState n Rat) (node : Fin n) (positive : 0 < level.total) :
    let s := Scratch.fresh.collect state.community level.rows[node]
    let found := s.choose level state node
    let current := state.community[node]
    (found = current ∨ found ∈ s.touched)
      ∧ state.gainIn level node current ≤ state.gainIn level node found
      ∧ ∀ c ∈ s.touched, state.gainIn level node c ≤ state.gainIn level node found + Scalar.slack * level.total := by
  intro s found current
  have nonnegative : 0 ≤ Scalar.slack * level.total := mul_nonneg Scratch.slack_nonneg positive.le
  let others := s.touched.toList.filter fun candidate => candidate ≠ current
  let start := (current, Scratch.gain s.weight[current] (state.total[current] - level.degrees[node])
    level.degrees[node] level.total)
  have chosen := s.foldl_better state.total level.degrees[node] level.total nonnegative others start
  obtain ⟨least, nearly⟩ :=
    s.foldl_better_nearly_best state.total level.degrees[node] level.total nonnegative others start
  set best := others.foldl (s.better state.total level.degrees[node] level.total (Scalar.slack * level.total)) start
  have itself : found = best.1 := rfl
  have among : ∀ {c : Fin n}, c ∈ others ↔ c ∈ s.touched ∧ c ≠ current := by
    intro c
    rw [List.mem_filter, Array.mem_toList_iff, decide_eq_true_eq]
  have inHand : best.2 = state.gainIn level node found := by
    rw [itself]
    rcases chosen with same | ⟨member, -, value⟩
    · rw [same]
      exact gain_current
    · rw [value]
      exact gain_around (among.1 member).2
  have first : start.2 = state.gainIn level node current := gain_current
  rw [inHand] at least nearly
  refine ⟨?_, first ▸ least, fun c touched => ?_⟩
  · rw [itself]
    rcases chosen with same | ⟨member, -, -⟩
    · exact .inl (congrArg Prod.fst same)
    · exact .inr (among.1 member).1
  · by_cases own : c = current
    · rw [own, ← first]
      linarith
    · rw [← gain_around own]
      exact nearly c (among.2 ⟨touched, own⟩)

end Gains

/-! ## Choices -/

/-- A community around a node: that of a node with which it is joined. -/
def MoveState.Around (state : MoveState n Rat) (level : Level n Rat) (node c : Fin n) : Prop :=
  ∃ v : Fin n, level.Joins node v ∧ state.community[v] = c

theorem mem_touched_iff_around {level : Level n Rat} {state : MoveState n Rat} {node c : Fin n} :
    c ∈ (Scratch.fresh.collect state.community level.rows[node]).touched ↔ state.Around level node c := by
  rw [Scratch.mem_touched_collect]
  constructor
  · rintro ⟨entry, inside, same⟩
    exact ⟨entry.1, ⟨entry, inside, rfl⟩, same⟩
  · rintro ⟨v, ⟨entry, inside, rfl⟩, same⟩
    exact ⟨entry, inside, same⟩

/-- The choices made before do not matter for a choice. A node leaves its community exactly if it gains more, by more
than the slack, in a community around it. Where it goes it gains, up to the slack, as much as in its own community and
in all communities around it. -/
theorem best_nearly_best {s : Scratch n Rat} (used : s.Used) {level : Level n Rat} (positive : 0 < level.total)
    (state : MoveState n Rat) (node : Fin n) :
    let found := (s.best level state node).1
    let current := state.community[node]
    let slack := Scalar.slack * level.total
    found = (Scratch.fresh.best level state node).1
      ∧ (found = current ∨ state.Around level node found)
      ∧ (found ≠ current ↔
        ∃ c, state.Around level node c ∧ state.gainIn level node current + slack < state.gainIn level node c)
      ∧ ∀ c, c = current ∨ state.Around level node c →
        state.gainIn level node c ≤ state.gainIn level node found + slack := by
  intro found current slack
  have same : found = bestCommunity level state node := used.clean.best_eq level state node
  have nonnegative : 0 ≤ slack := mul_nonneg Scratch.slack_nonneg positive.le
  obtain ⟨known, least, nearly⟩ := choose_nearly_best state node positive
  have stays := @Scratch.choose_eq_iff n (Scratch.fresh.collect state.community level.rows[node]) level state node
    positive.le
  rw [← bestCommunity_eq_choose (not_le.2 positive), ← same] at known least nearly stays
  simp only [mem_touched_iff_around] at known nearly stays
  refine ⟨same, known, ?_, ?_⟩
  · rw [Ne, stays, gain_current]
    simp only [not_forall, not_le, exists_prop]
    refine exists_congr fun c => ?_
    constructor
    · rintro ⟨around, other, more⟩
      rw [gain_around other] at more
      exact ⟨around, more⟩
    · rintro ⟨around, more⟩
      have other : c ≠ state.community[node] := by
        rintro rfl
        linarith
      rw [gain_around other]
      exact ⟨around, other, more⟩
  · rintro c (rfl | around)
    · linarith
    · exact nearly c around

/-- Three nodes in a row: the last two are joined twice as heavily as the first two. -/
def rowOfThree : Level 3 Rat :=
  .ofNetwork fun node => match node with
    | 0 => [(1, 1)]
    | 1 => [(0, 1), (2, 2)]
    | 2 => [(1, 2)]

/-- The node in the middle of the row, after a choice for the first node was made with the same table. -/
theorem best_nearly_best_row :
    let state := MoveState.singletons rowOfThree
    let s := (Scratch.fresh.best rowOfThree state 0).2
    s.Used ∧ 0 < rowOfThree.total
      ∧ let found := (s.best rowOfThree state 1).1
        found = (Scratch.fresh.best rowOfThree state 1).1
          ∧ ∀ c, c = state.community[(1 : Fin 3)] ∨ state.Around rowOfThree 1 c →
            state.gainIn rowOfThree 1 c ≤ state.gainIn rowOfThree 1 found + Scalar.slack * rowOfThree.total := by
  have used : (Scratch.fresh.best rowOfThree (.singletons rowOfThree) 0).2.Used := .best .fresh _ _ _
  have positive : 0 < rowOfThree.total := by decide +kernel
  obtain ⟨same, -, -, nearly⟩ := best_nearly_best used positive (.singletons rowOfThree) 1
  exact ⟨used, positive, same, nearly⟩

end NetworkAnalysis.Community
