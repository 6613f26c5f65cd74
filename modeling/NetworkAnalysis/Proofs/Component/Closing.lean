import NetworkAnalysis.Proofs.Component.Steps

/-!
# Closing a component

When all neighbours of a node have been looked at and its low link is its own number, the node and all that
stands above it on the stack are a strongly connected component: the node reaches them, and each of them
has a low link through which it comes back (`Popped`). Every relationship that leaves the component leads
into one that was closed before.
-/

namespace NetworkAnalysis.Component.Search

variable {n : Nat} {neighbours : Fin n → List (Fin n)} {s : Search n}
  {looked looked' : Fin n → Fin n → Prop}

/-! ## Taking nodes from the stack -/

/-- Popping through a node takes the node and all above it from the stack, and gives them their component. -/
theorem popThrough_eq {node : Fin n} {component : Nat} {above below : List (Fin n)}
    (first : node ∉ above) (onStack : Table n Bool) (components : Table n (Option Nat)) :
    (popThrough node component (above ++ node :: below) onStack components).1 = below
      ∧ ∀ v : Fin n,
        (popThrough node component (above ++ node :: below) onStack components).2.1[v]
          = (if v ∈ above ∨ v = node then false else onStack[v])
        ∧ (popThrough node component (above ++ node :: below) onStack components).2.2[v]
          = if v ∈ above ∨ v = node then some component else components[v] := by
  induction above generalizing onStack components with
  | nil =>
    simp only [List.nil_append, popThrough, if_true, List.not_mem_nil, false_or, Table.getElem_set,
      eq_comm (a := node), and_self, implies_true]
  | cons member above ih =>
    obtain ⟨other, first⟩ := not_or.1 (mt List.mem_cons.2 first)
    rw [List.cons_append, popThrough]
    simp only [if_neg fun same : member = node => other same.symm]
    obtain ⟨stack, tables⟩ := ih first (onStack.set member false) (components.set member (some component))
    refine ⟨stack, fun v => ?_⟩
    rw [(tables v).1, (tables v).2, Table.getElem_set, Table.getElem_set]
    by_cases popped : v ∈ above ∨ v = node
    · have : v ∈ member :: above ∨ v = node := popped.imp_left (List.mem_cons_of_mem _)
      simp only [if_pos popped, if_pos this, and_self]
    · by_cases same : member = v
      · subst same
        simp only [if_neg popped, if_true, List.mem_cons_self, true_or, and_self]
      · have : ¬(v ∈ member :: above ∨ v = node) := by
          rintro (inside | rfl)
          · exact popped (.inl ((List.mem_cons.1 inside).resolve_left fun equal => same equal.symm))
          · exact popped (.inr rfl)
        simp only [if_neg popped, if_neg this, if_neg same, and_self]

/-- The second search is the first after the topmost frame was left and its component closed: the nodes
with numbers from `first` on have left the stack. -/
structure ClosedFrom (s : Search n) (first : Nat) (rest : List (Frame n)) (t : Search n) : Prop where
  index : t.index = s.index
  lowlink : t.lowlink = s.lowlink
  counter : t.counter = s.counter
  frames : t.frames = rest
  stack : t.stack = s.stack.filter fun v => s.number v < first
  onStack : ∀ v : Fin n, t.onStack[v] = if v ∈ s.stack ∧ first ≤ s.number v then false else s.onStack[v]
  components : ∀ v : Fin n, t.components[v]
    = if v ∈ s.stack ∧ first ≤ s.number v then some s.componentCount else s.components[v]
  componentCount : t.componentCount = s.componentCount + 1

theorem ClosedFrom.mem_stack {first : Nat} {rest : List (Frame n)} {t : Search n}
    (h : s.ClosedFrom first rest t) {v : Fin n} : v ∈ t.stack ↔ v ∈ s.stack ∧ s.number v < first := by
  rw [h.stack, List.mem_filter, decide_eq_true_eq]

theorem ClosedFrom.number {first : Nat} {rest : List (Frame n)} {t : Search n} (h : s.ClosedFrom first rest t)
    (v : Fin n) : t.number v = s.number v := by
  rw [Search.number, h.index]
  rfl

/-- Closing a component pops what stands above the node and the node itself. These are the nodes with the largest
numbers, since the stack descends. -/
theorem closedFrom_close (h : s.Stacked) {frame : Frame n} {rest : List (Frame n)}
    (frames : s.frames = frame :: rest) (first : s.index[frame.node] = some s.lowlink[frame.node])
    (buffer : Array (Fin n)) :
    s.ClosedFrom (s.number frame.node) rest (close { s with frames := rest, buffer } frame.node) := by
  have onTop : frame.node ∈ s.stack := h.mem_stack (by rw [active_eq frames]; exact List.mem_cons_self)
  obtain ⟨above, below, parts⟩ := List.append_of_mem onTop
  have ordered := h.descending
  rw [parts] at ordered
  obtain ⟨-, lower, upper⟩ := List.pairwise_append.1 ordered
  have higher : ∀ v ∈ above, s.number frame.node < s.number v := fun v member =>
    upper v member _ List.mem_cons_self
  have lower : ∀ v ∈ below, s.number v < s.number frame.node := (List.pairwise_cons.1 lower).1
  have notAbove : frame.node ∉ above := fun member => Nat.lt_irrefl _ (higher _ member)
  -- above the node stand exactly the nodes with larger numbers
  have popped : ∀ v : Fin n, (v ∈ above ∨ v = frame.node)
      ↔ (v ∈ s.stack ∧ s.number frame.node ≤ s.number v) := by
    intro v
    rw [parts, List.mem_append, List.mem_cons]
    constructor
    · rintro (member | rfl)
      · exact ⟨.inl member, Nat.le_of_lt (higher v member)⟩
      · exact ⟨.inr (.inl rfl), Nat.le_refl _⟩
    · rintro ⟨member | same | member, from'⟩
      · exact .inl member
      · exact .inr same
      · exact absurd (lower v member) (Nat.not_lt.2 from')
  obtain ⟨stack, tables⟩ :=
    @popThrough_eq n frame.node s.componentCount above below notAbove s.onStack s.components
  rw [← parts] at stack tables
  simp only [popped] at tables
  have stack' : (close { s with frames := rest, buffer } frame.node).stack = below := by
    unfold close
    rw [if_pos first]
    exact stack
  unfold close at stack' ⊢
  rw [if_pos first] at stack' ⊢
  constructor
  case index => rfl
  case lowlink => rfl
  case counter => rfl
  case frames => rfl
  case stack =>
    have noneAbove : above.filter (fun v => s.number v < s.number frame.node) = [] :=
      List.filter_eq_nil_iff.2 fun v member => by simpa using Nat.le_of_lt (higher v member)
    have all : below.filter (fun v => s.number v < s.number frame.node) = below :=
      List.filter_eq_self.2 fun v member => by simpa using lower v member
    show _ = s.stack.filter fun v => s.number v < s.number frame.node
    rw [stack', parts, List.filter_append, noneAbove, List.nil_append, List.filter_cons_of_neg (by simp), all]
  case onStack =>
    intro v
    exact (tables v).1
  case components =>
    intro v
    exact (tables v).2
  case componentCount => rfl

/-! ## The closed component -/

variable {frame : Frame n} {rest : List (Frame n)} {t : Search n}

/-- What holds of the nodes that stand on the stack from the topmost frame on. -/
structure Popped (neighbours : Fin n → List (Fin n)) (s : Search n) (node : Fin n) : Prop where
  low : ∀ v ∈ s.stack, s.number node ≤ s.number v → s.number node ≤ s.lowlink[v]
  from' : ∀ v ∈ s.stack, s.number node ≤ s.number v → Reaches neighbours node v
  back : ∀ v ∈ s.stack, s.number node ≤ s.number v → Reaches neighbours v node
  leads : ∀ v ∈ s.stack, s.number node ≤ s.number v → ∀ w ∈ neighbours v,
    (w ∈ s.stack ∧ s.number node ≤ s.number w) ∨ ∃ c, s.components[w] = some c

/-- A first node whose low link is its own number leaves the nodes from it on no way out: each reaches one with a
smaller number until that is the first node, and what they lead to is one of them or has a component. -/
theorem Linked.popped (h : s.Linked neighbours looked) (stacked : s.Stacked)
    (frames : s.frames = frame :: rest) (first : s.index[frame.node] = some s.lowlink[frame.node])
    (complete : ∀ v ∈ s.stack, s.number frame.node ≤ s.number v → ∀ w ∈ neighbours v, looked v w) :
    s.Popped neighbours frame.node := by
  have active := top_mem_active frames
  have itsLow : s.number frame.node = s.lowlink[frame.node] := number_of_index first
  have low : ∀ v ∈ s.stack, s.number frame.node ≤ s.number v →
      s.number frame.node ≤ s.lowlink[v] := by
    intro v member from'
    obtain ⟨g, active', above, handed⟩ := h.handed _ active v member from'
    have top : g = frame.node := stacked.eq_of_number (stacked.mem_stack active')
      (stacked.mem_stack active) (Nat.le_antisymm (stacked.number_le_top frames active') above)
    rwa [itsLow, ← top]
  refine ⟨low, h.below _ active, ?_, ?_⟩
  · -- a node that is not the first one reaches a node with a smaller number
    have descent : ∀ number, ∀ v ∈ s.stack, s.number v = number → s.number frame.node ≤ s.number v →
        Reaches neighbours v frame.node := by
      intro number
      induction number using Nat.strongRecOn with
      | _ number ih =>
        rintro v member rfl from'
        by_cases same : v = frame.node
        · rw [same]
          exact .refl _ _
        have inactive : v ∉ s.active := fun active' => same <|
          stacked.eq_of_number member (stacked.mem_stack active)
            (Nat.le_antisymm (stacked.number_le_top frames active') from')
        obtain ⟨w, member', itsNumber, reach⟩ := h.low_reached v member
        have less : s.number w < s.number v := itsNumber ▸ h.left v member inactive
        exact reach.trans (ih _ less w member' rfl (itsNumber ▸ low v member from'))
    intro v member
    exact descent _ v member rfl
  · intro v member from' w neighbour
    have look := complete v member from' w neighbour
    rcases (stacked.discovered w).1 (h.seen v member w look) with onStack | assigned
    · exact .inl ⟨onStack, Nat.le_trans (low v member from') (h.back v member w onStack look)⟩
    · exact .inr (Option.ne_none_iff_exists'.1 assigned)

/-! ## The search after a component was closed -/

/-- The nodes below those that were popped stand on the stack as before. -/
theorem Stacked.closedFrom (h : s.Stacked) (frames : s.frames = frame :: rest)
    (change : s.ClosedFrom (s.number frame.node) rest t) : t.Stacked := by
  constructor
  case number_lt =>
    intro v found
    rw [change.number, change.counter]
    exact h.number_lt v (change.index ▸ found)
  case descending =>
    rw [change.stack]
    refine (h.descending.sublist List.filter_sublist).imp fun less => ?_
    rwa [change.number, change.number]
  case onStack =>
    intro v
    rw [change.onStack, change.mem_stack]
    split
    · next popped => simp [popped.2]
    · next stays =>
      rw [h.onStack]
      exact ⟨fun member => ⟨member, Nat.lt_of_not_le fun from' => stays ⟨member, from'⟩⟩, And.left⟩
  case discovered =>
    intro v
    rw [change.index, h.discovered, change.mem_stack, change.components]
    split
    · next popped => simp [popped.1]
    · next stays =>
      refine or_congr_left ?_
      exact ⟨fun member => ⟨member, Nat.lt_of_not_le fun from' => stays ⟨member, from'⟩⟩, And.left⟩
  case open' =>
    intro v member
    obtain ⟨member, less⟩ := change.mem_stack.1 member
    rw [change.components, if_neg fun popped => Nat.lt_irrefl _ (Nat.lt_of_lt_of_le less popped.2)]
    exact h.open' v member
  case frames =>
    have ordered := h.descending.sublist h.frames
    have sublist := h.frames
    rw [active_eq frames] at ordered sublist
    have kept : (rest.map Frame.node).filter (fun v => s.number v < s.number frame.node)
        = rest.map Frame.node :=
      List.filter_eq_self.2 fun v member => by simpa using (List.pairwise_cons.1 ordered).1 v member
    rw [Search.active, change.frames, change.stack, ← kept]
    exact ((List.sublist_cons_self _ _).trans sublist).filter _

/-- The nodes that stay on the stack stay linked. Their low links are those of nodes that stay, because a popped node
has a larger number than all of them. -/
theorem Linked.closedFrom (h : s.Linked neighbours looked)
    (frames : s.frames = frame :: rest) (first : s.index[frame.node] = some s.lowlink[frame.node])
    (change : s.ClosedFrom (s.number frame.node) rest t)
    (fewer : ∀ v ∈ t.stack, ∀ w, looked' v w → looked v w) : t.Linked neighbours looked' := by
  have active : t.active = rest.map Frame.node := by rw [Search.active, change.frames]
  have kept : ∀ {f}, f ∈ t.active → f ∈ s.active := by
    intro f member
    rw [active_eq frames]
    rw [active] at member
    exact List.mem_cons_of_mem _ member
  have old : ∀ {v}, v ∈ t.stack → v ∈ s.stack ∧ s.number v < s.number frame.node := fun {v} =>
    change.mem_stack.1
  have itsLow : s.number frame.node = s.lowlink[frame.node] := number_of_index first
  constructor
  case low_le =>
    intro v member
    rw [change.number, change.lowlink]
    exact h.low_le v (old member).1
  case low_reached =>
    intro v member
    obtain ⟨w, member', itsNumber, reach⟩ := h.low_reached v (old member).1
    have less : s.number w < s.number frame.node :=
      itsNumber ▸ Nat.lt_of_le_of_lt (h.low_le v (old member).1) (old member).2
    refine ⟨w, change.mem_stack.2 ⟨member', less⟩, ?_, reach⟩
    rw [change.number, change.lowlink, itsNumber]
  case left =>
    intro v member inactive
    rw [change.number, change.lowlink]
    refine h.left v (old member).1 fun active' => ?_
    rw [active_eq frames] at active'
    rcases List.mem_cons.1 active' with rfl | below
    · exact Nat.lt_irrefl _ (old member).2
    · exact inactive (active ▸ below)
  case below =>
    intro f active' v member between
    rw [change.number, change.number] at between
    exact h.below f (kept active') v (old member).1 between
  case handed =>
    intro f active' v member between
    rw [change.number, change.number] at between
    obtain ⟨g, active'', between', low⟩ := h.handed f (kept active') v (old member).1 between
    rw [active_eq frames] at active''
    rcases List.mem_cons.1 active'' with rfl | below
    · -- the low link of the first node is not below the nodes that stay
      have less := Nat.lt_of_le_of_lt (h.low_le v (old member).1) (old member).2
      rw [itsLow] at less
      exact absurd low (Nat.not_le.2 less)
    · refine ⟨g, active ▸ below, ?_, ?_⟩
      · rwa [change.number, change.number]
      · rwa [change.lowlink]
  case seen =>
    intro v member w look
    rw [change.index]
    exact h.seen v (old member).1 w (fewer v member w look)
  case back =>
    intro v member w member' look
    rw [change.number, change.lowlink]
    exact h.back v (old member).1 w (old member').1 (fewer v member w look)

/-- The nodes that were popped make up a component that is closed: they reach each other, and lead only to each other
and to earlier components. -/
theorem Closed.closedFrom (h : s.Closed neighbours) (stacked : s.Stacked)
    (onStack : frame.node ∈ s.stack) (popped : s.Popped neighbours frame.node)
    (change : s.ClosedFrom (s.number frame.node) rest t) : t.Closed neighbours := by
  have earlier : ∀ {v : Fin n} {c : Nat}, s.components[v] = some c → c < s.componentCount := fun {v c} its =>
    (h.used c).1 ⟨v, its⟩
  have stays : ∀ {v : Fin n} {c : Nat}, s.components[v] = some c → t.components[v] = some c := by
    intro v c its
    rw [change.components, if_neg, its]
    rintro ⟨member, -⟩
    rw [stacked.open' v member] at its
    cases its
  have new : ∀ {v : Fin n}, v ∈ s.stack → s.number frame.node ≤ s.number v →
      t.components[v] = some s.componentCount := by
    intro v member from'
    rw [change.components, if_pos ⟨member, from'⟩]
  have either : ∀ {v : Fin n} {c : Nat}, t.components[v] = some c →
      (v ∈ s.stack ∧ s.number frame.node ≤ s.number v ∧ c = s.componentCount)
        ∨ s.components[v] = some c := by
    intro v c its
    rw [change.components] at its
    split at its
    · next popped => exact .inl ⟨popped.1, popped.2, (Option.some.inj its).symm⟩
    · exact .inr its
  constructor
  case leads =>
    intro v c its w neighbour
    rcases either its with ⟨member, from', rfl⟩ | before
    · rcases popped.leads v member from' w neighbour with ⟨member', from''⟩ | ⟨d, assigned⟩
      · exact ⟨_, new member' from'', Nat.le_refl _⟩
      · exact ⟨d, stays assigned, Nat.le_of_lt (earlier assigned)⟩
    · obtain ⟨d, assigned, le⟩ := h.leads v c before w neighbour
      exact ⟨d, stays assigned, le⟩
  case connected =>
    intro u v c itsU itsV
    rcases either itsU with ⟨memberU, fromU, rfl⟩ | beforeU
    · rcases either itsV with ⟨memberV, fromV, -⟩ | beforeV
      · exact (popped.back u memberU fromU).trans (popped.from' v memberV fromV)
      · exact absurd (earlier beforeV) (Nat.lt_irrefl _)
    · rcases either itsV with ⟨-, -, rfl⟩ | beforeV
      · exact absurd (earlier beforeU) (Nat.lt_irrefl _)
      · exact h.connected u v c beforeU beforeV
  case used =>
    intro c
    rw [change.componentCount, Nat.lt_succ_iff_lt_or_eq, ← h.used]
    constructor
    · rintro ⟨v, its⟩
      rcases either its with ⟨-, -, same⟩ | before
      · exact .inr same
      · exact .inl ⟨v, before⟩
    · rintro (⟨v, its⟩ | rfl)
      · exact ⟨v, stays its⟩
      · exact ⟨frame.node, new onStack (Nat.le_refl _)⟩

end NetworkAnalysis.Component.Search
