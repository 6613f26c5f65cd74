import NetworkAnalysis.Proofs.Component.Invariant

/-!
# Discovering nodes and looking at neighbours

The steps of the component search that close no component keep the invariant: a node is discovered, a low
link is lowered, and a frame is left whose node is not the first of its component.
-/

namespace NetworkAnalysis.Component.Search

variable {n : Nat} {neighbours : Fin n → List (Fin n)} {s : Search n}
  {looked looked' : Fin n → Fin n → Prop}

/-! ## Discovering a node -/

section Enter

variable {node : Fin n}

theorem index_enter (v : Fin n) :
    (s.enter neighbours node).index[v] = if node = v then some s.counter else s.index[v] :=
  Table.getElem_set _ _ _ _

theorem lowlink_enter (v : Fin n) :
    (s.enter neighbours node).lowlink[v] = if node = v then s.counter else s.lowlink[v] :=
  Table.getElem_set _ _ _ _

theorem onStack_enter (v : Fin n) :
    (s.enter neighbours node).onStack[v] = if node = v then true else s.onStack[v] :=
  Table.getElem_set _ _ _ _

theorem number_enter (v : Fin n) :
    (s.enter neighbours node).number v = if node = v then s.counter else s.number v := by
  rw [number, index_enter]
  split <;> rfl

/-- A node that is entered gets the largest number so far and goes on top of the stack. -/
theorem Stacked.enter (h : s.Stacked) (new : s.index[node] = none) :
    (s.enter neighbours node).Stacked := by
  have away : node ∉ s.stack := fun member => h.index_ne_none member new
  have old : ∀ {v}, v ∈ s.stack → node ≠ v := fun member same => away (same ▸ member)
  constructor
  case number_lt =>
    intro v found
    rw [number_enter]
    rw [index_enter] at found
    show _ < s.counter + 1
    split
    · exact Nat.lt_succ_self _
    · next other =>
      rw [if_neg other] at found
      exact Nat.lt_succ_of_lt (h.number_lt v found)
  case descending =>
    refine List.pairwise_cons.2 ⟨fun v member => ?_, ?_⟩
    · rw [number_enter, number_enter, if_pos rfl, if_neg (old member)]
      exact h.number_lt v (h.index_ne_none member)
    · refine h.descending.imp_of_mem fun {u v} hu hv less => ?_
      rwa [number_enter, number_enter, if_neg (old hu), if_neg (old hv)]
  case onStack =>
    intro v
    rw [onStack_enter]
    show _ ↔ v ∈ node :: s.stack
    rw [List.mem_cons]
    split
    · next same => simp [same]
    · next other => rw [h.onStack, or_iff_right fun same => other same.symm]
  case discovered =>
    intro v
    rw [index_enter]
    show _ ↔ v ∈ node :: s.stack ∨ s.components[v] ≠ none
    rw [List.mem_cons]
    split
    · next same => simp [same]
    · next other => rw [h.discovered, or_iff_right (a := v = node) fun same => other same.symm]
  case open' =>
    intro v member
    rcases List.mem_cons.1 member with rfl | member
    · by_contra found
      exact (h.discovered v).2 (.inr found) new
    · exact h.open' v member
  case frames => exact h.frames.cons_cons node

/-- A node that can be reached from all frames is discovered. -/
theorem Linked.enter (h : s.Linked neighbours looked) (stacked : s.Stacked)
    (new : s.index[node] = none) (link : ∀ f ∈ s.active, Reaches neighbours f node)
    (fewer : ∀ v ∈ s.stack, ∀ w, looked' v w → looked v w ∨ w = node)
    (fresh : ∀ w, ¬looked' node w) : (s.enter neighbours node).Linked neighbours looked' := by
  have away : node ∉ s.stack := fun member => stacked.index_ne_none member new
  have old : ∀ {v}, v ∈ s.stack → node ≠ v := fun member same => away (same ▸ member)
  have number : ∀ {v}, v ∈ s.stack → (s.enter neighbours node).number v = s.number v := by
    intro v member
    rw [number_enter, if_neg (old member)]
  have lowlink : ∀ {v}, v ∈ s.stack → (s.enter neighbours node).lowlink[v] = s.lowlink[v] := by
    intro v member
    rw [lowlink_enter, if_neg (old member)]
  have number' : (s.enter neighbours node).number node = s.counter := by
    rw [number_enter, if_pos rfl]
  have lowlink' : (s.enter neighbours node).lowlink[node] = s.counter := by
    rw [lowlink_enter, if_pos rfl]
  have below : ∀ {v}, v ∈ s.stack → s.number v < s.counter := fun {v} member =>
    stacked.number_lt v (stacked.index_ne_none member)
  constructor
  case low_le =>
    intro v member
    rcases List.mem_cons.1 member with rfl | earlier
    · exact Nat.le_of_eq (lowlink'.trans number'.symm)
    · rw [number earlier, lowlink earlier]
      exact h.low_le v earlier
  case low_reached =>
    intro v member
    rcases List.mem_cons.1 member with rfl | earlier
    · exact ⟨v, List.mem_cons_self, by rw [number', lowlink'], .refl _ _⟩
    · obtain ⟨w, onStack, low, reach⟩ := h.low_reached v earlier
      exact ⟨w, List.mem_cons_of_mem _ onStack, by rw [number onStack, lowlink earlier, low], reach⟩
  case left =>
    intro v member inactive
    rcases List.mem_cons.1 member with rfl | earlier
    · exact absurd List.mem_cons_self inactive
    · rw [number earlier, lowlink earlier]
      exact h.left v earlier fun active => inactive (List.mem_cons_of_mem _ active)
  case below =>
    intro f active v member less
    rcases List.mem_cons.1 active with rfl | open'
    · rcases List.mem_cons.1 member with rfl | earlier
      · exact .refl _ _
      · rw [number', number earlier] at less
        exact absurd (below earlier) (Nat.not_lt.2 less)
    · rcases List.mem_cons.1 member with rfl | earlier
      · exact link f open'
      · rw [number (stacked.mem_stack open'), number earlier] at less
        exact h.below f open' v earlier less
  case handed =>
    intro f active v member less
    rcases List.mem_cons.1 member with rfl | earlier
    · exact ⟨v, List.mem_cons_self, less, Nat.le_refl _⟩
    rcases List.mem_cons.1 active with rfl | open'
    · rw [number', number earlier] at less
      exact absurd (below earlier) (Nat.not_lt.2 less)
    · rw [number (stacked.mem_stack open'), number earlier] at less
      obtain ⟨g, still, between, low⟩ := h.handed f open' v earlier less
      refine ⟨g, List.mem_cons_of_mem _ still, ?_, ?_⟩
      · rwa [number (stacked.mem_stack open'), number (stacked.mem_stack still)]
      · rwa [lowlink (stacked.mem_stack still), lowlink earlier]
  case seen =>
    intro v member w look
    rw [index_enter]
    rcases List.mem_cons.1 member with rfl | earlier
    · exact absurd look (fresh w)
    rcases fewer v earlier w look with before | rfl
    · split
      · exact Option.some_ne_none _
      · exact h.seen v earlier w before
    · rw [if_pos rfl]
      exact Option.some_ne_none _
  case back =>
    intro v member w target look
    rcases List.mem_cons.1 member with rfl | earlier
    · exact absurd look (fresh w)
    rw [lowlink earlier]
    rcases List.mem_cons.1 target with rfl | onStack
    · rw [number']
      exact Nat.le_trans (h.low_le v earlier) (Nat.le_of_lt (below earlier))
    · rw [number onStack]
      rcases fewer v earlier w look with before | rfl
      · exact h.back v earlier w onStack before
      · exact absurd onStack away

end Enter

/-! ## Lowering a low link -/

theorem lowlink_lower (node : Fin n) (number : Nat) (v : Fin n) :
    (s.lower node number).lowlink[v]
      = if node = v then min s.lowlink[node] number else s.lowlink[v] :=
  Table.getElem_set _ _ _ _

theorem lowlink_lower_le (node : Fin n) (number : Nat) (v : Fin n) :
    (s.lower node number).lowlink[v] ≤ s.lowlink[v] := by
  rw [lowlink_lower]
  split
  · next same =>
    subst same
    exact Nat.min_le_left _ _
  · exact Nat.le_refl _

/-- A low link that is low enough stays. -/
theorem lower_eq_self {node : Fin n} {number : Nat} (low : s.lowlink[node] ≤ number) :
    s.lower node number = s := by
  have same : s.lowlink.set node (min s.lowlink[node] number) = s.lowlink := by
    refine Table.ext fun v => ?_
    rw [Table.getElem_set]
    split
    · next same => rw [← same, Nat.min_eq_left low]
    · rfl
  rw [lower, same]

theorem Stacked.lower (h : s.Stacked) (node : Fin n) (number : Nat) : (s.lower node number).Stacked :=
  { h with }

/-- The low link of a frame is lowered to the number of a node that can be reached. -/
theorem Linked.lower (h : s.Linked neighbours looked) (stacked : s.Stacked) {node target : Fin n}
    (active : node ∈ s.active) (onStack : target ∈ s.stack) (reach : Reaches neighbours node target)
    (fewer : ∀ v ∈ s.stack, ∀ w, looked' v w → looked v w ∨ (v = node ∧ w = target)) :
    (s.lower node (s.number target)).Linked neighbours looked' := by
  have less := lowlink_lower_le (s := s) node (s.number target)
  have target_le : (s.lower node (s.number target)).lowlink[node] ≤ s.number target := by
    rw [lowlink_lower, if_pos rfl]
    exact Nat.min_le_right _ _
  constructor
  case low_le =>
    intro v member
    exact Nat.le_trans (less v) (h.low_le v member)
  case low_reached =>
    intro v member
    rw [lowlink_lower]
    split
    · next same =>
      subst same
      rcases Nat.le_total s.lowlink[node] (s.number target) with low | low
      · rw [Nat.min_eq_left low]
        exact h.low_reached node member
      · rw [Nat.min_eq_right low]
        exact ⟨target, onStack, rfl, reach⟩
    · exact h.low_reached v member
  case left =>
    intro v member inactive
    exact Nat.lt_of_le_of_lt (less v) (h.left v member inactive)
  case below => exact h.below
  case handed =>
    intro f active' v member between
    by_cases same : node = v
    · subst same
      exact ⟨node, active, between, Nat.le_refl _⟩
    · obtain ⟨g, active'', between', low⟩ := h.handed f active' v member between
      refine ⟨g, active'', between', ?_⟩
      rw [lowlink_lower node _ v, if_neg same]
      exact Nat.le_trans (less g) low
  case seen =>
    intro v member w look
    rcases fewer v member w look with look | ⟨rfl, rfl⟩
    · exact h.seen v member w look
    · exact stacked.index_ne_none onStack
  case back =>
    intro v member w member' look
    rcases fewer v member w look with look | ⟨rfl, rfl⟩
    · exact Nat.le_trans (less v) (h.back v member w member' look)
    · exact target_le

/-! ## Leaving a frame -/

section Drop

variable {frame : Frame n} {rest : List (Frame n)}

theorem active_eq (frames : s.frames = frame :: rest) :
    s.active = frame.node :: rest.map Frame.node := by
  rw [active, frames, List.map_cons]

theorem top_mem_active (frames : s.frames = frame :: rest) : frame.node ∈ s.active := by
  rw [active_eq frames]
  exact List.mem_cons_self

theorem Stacked.drop (h : s.Stacked) (frames : s.frames = frame :: rest) (buffer : Array (Fin n)) :
    Stacked { s with frames := rest, buffer } :=
  { h with frames := (List.sublist_cons_self _ _).trans (active_eq frames ▸ h.frames) }

/-- A frame is left whose node is not the first of its component and has handed on its low link. -/
theorem Linked.drop (h : s.Linked neighbours looked) (stacked : s.Stacked)
    (frames : s.frames = frame :: rest) (later : s.lowlink[frame.node] < s.number frame.node)
    (low : ∀ parent ∈ rest.head?, s.lowlink[parent.node] ≤ s.lowlink[frame.node])
    (fewer : ∀ v ∈ s.stack, ∀ w, looked' v w → looked v w) (buffer : Array (Fin n)) :
    Linked neighbours looked' { s with frames := rest, buffer } := by
  have kept : ∀ {f}, f ∈ rest.map Frame.node → f ∈ s.active := by
    intro f member
    rw [active_eq frames]
    exact List.mem_cons_of_mem _ member
  refine { h.mono fewer with left := ?left, below := ?below, handed := ?handed }
  case left =>
    intro v member inactive
    by_cases same : v = frame.node
    · exact same ▸ later
    · refine h.left v member fun active => ?_
      rw [active_eq frames] at active
      exact (List.mem_cons.1 active).elim same inactive
  case below =>
    intro f active
    exact h.below f (kept active)
  case handed =>
    intro f active v member between
    obtain ⟨g, active', between', low'⟩ := h.handed f (kept active) v member between
    rw [active_eq frames] at active'
    rcases List.mem_cons.1 active' with rfl | below
    · cases rest with
      | nil => cases active
      | cons parent rest =>
        have ordered : s.number f ≤ s.number parent.node :=
          (stacked.drop frames buffer).number_le_top (show _ = parent :: rest from rfl) active
        exact ⟨parent.node, List.mem_cons_self, ordered, Nat.le_trans (low parent rfl) low'⟩
    · exact ⟨g, below, between', low'⟩

end Drop

end NetworkAnalysis.Component.Search
