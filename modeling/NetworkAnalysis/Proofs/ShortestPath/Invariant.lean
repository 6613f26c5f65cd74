import NetworkAnalysis.Proofs.Heap
import NetworkAnalysis.Proofs.ShortestPath.Routes
import NetworkAnalysis.ShortestPath.Search

/-!
# The frontier invariant

While a search goes on, the settled nodes are the cheapest ones, every other node that has been reached
waits in the frontier at its cost, and no step that has been tried leads to a node more cheaply than the
tree knows (`Tree.Sound`). An entry of the frontier whose node has become cheaper since stays behind; it
costs more than the node, and so does no harm.

The invariant is kept up step by step: `Tree.Expanding` is the state between the settling of a node and its
last step.
-/

namespace NetworkAnalysis.ShortestPath

variable {n : Nat} {α : Type} [Scalar α]

/-! ## The order of the frontier -/

/-- An entry costs at most as much as another. -/
def Candidate.Le (a b : Candidate n α) : Prop :=
  a.cost ≤ b.cost

theorem Candidate.respects_before [CostLaws α] :
    Heap.Respects (Candidate.before : Candidate n α → Candidate n α → Bool) Candidate.Le where
  trans := Std.le_trans
  le_of_before := by
    intro a b first
    rw [Le, ← Std.not_lt, ← CostLaws.order_eq_gt]
    intro more
    simp [before, more] at first
  le_of_not_before := by
    intro a b second
    rw [Le, ← Std.not_lt, ← CostLaws.order_eq_lt]
    intro less
    simp [before, less] at second

/-! ## Trails of predecessors -/

/-- The nodes on the way back from a node to the source, from the source on. -/
inductive Back (predecessors : Table n (Option (Fin n))) (source : Fin n) :
    Fin n → List (Fin n) → Prop where
  /-- There is no way to go at the source. -/
  | source : Back predecessors source source [source]
  /-- A node comes after the way to its predecessor. -/
  | step {node previous : Fin n} {nodes : List (Fin n)} :
    predecessors[node] = some previous → Back predecessors source previous nodes →
      Back predecessors source node (nodes ++ [node])

namespace Back

variable {predecessors predecessors' : Table n (Option (Fin n))} {source node : Fin n}
  {nodes : List (Fin n)}

theorem congr (back : Back predecessors source node nodes)
    (same : ∀ x ∈ nodes, predecessors'[x] = predecessors[x]) :
    Back predecessors' source node nodes := by
  induction back with
  | source => exact .source
  | @step node previous nodes found _ ih =>
    refine .step ?_ (ih fun x member => same x (List.mem_append_left _ member))
    rw [same node (List.mem_append_right _ (List.mem_singleton_self _)), found]

theorem length_pos (back : Back predecessors source node nodes) : 0 < nodes.length := by
  cases back <;> simp

end Back

/-! ## The invariant -/

/-- What holds of a tree once the steps in `tried` have been tried. -/
structure Tree.Sound (steps : Network n α) (source : Fin n) (settled : Table n Bool)
    (tried : Fin n → Fin n × α → Prop) (t : Tree n α) : Prop where
  sourceCost : t.costs[source] = Scalar.zero
  sourceRoot : t.predecessors[source] = none
  nonnegative : ∀ node : Fin n, Scalar.zero ≤ t.costs[node]
  bounded : ∀ node : Fin n, t.costs[node] ≤ Scalar.unreachable
  parent : ∀ node : Fin n, node ≠ source → t.costs[node] < Scalar.unreachable →
    ∃ (previous : Fin n) (weight : α), t.predecessors[node] = some previous
      ∧ settled[previous] = true ∧ (node, weight) ∈ steps previous
      ∧ t.costs[node] = t.costs[previous] + weight
  trail : ∀ node : Fin n, settled[node] = true →
    ∃ nodes, Back t.predecessors source node nodes ∧ nodes.Nodup
      ∧ ∀ x ∈ nodes, settled[x] = true
  reached : ∀ node : Fin n, settled[node] = true → t.costs[node] < Scalar.unreachable
  cheapest : ∀ node other : Fin n, settled[node] = true → settled[other] = false →
    t.costs[node] ≤ t.costs[other]
  ordered : t.frontier.Ordered Candidate.Le
  entry : ∀ candidate ∈ t.frontier.toList,
    t.costs[candidate.node] ≤ candidate.cost ∧ candidate.cost < Scalar.unreachable
  waiting : ∀ node : Fin n, settled[node] = false → t.costs[node] < Scalar.unreachable →
    ∃ candidate ∈ t.frontier.toList, candidate.node = node ∧ candidate.cost = t.costs[node]
  origin : ∀ node step, tried node step → settled[node] = true
  relaxed : ∀ node step, tried node step → t.costs[node] + step.2 < Scalar.unreachable →
    t.costs[step.1] ≤ t.costs[node] + step.2

/-- What holds of a tree while the steps from a node are tried. -/
structure Tree.Expanding (steps : Network n α) (source : Fin n) (settled : Table n Bool)
    (node : Fin n) (cost : α) (tried : Fin n → Fin n × α → Prop) (t : Tree n α) : Prop
    extends Tree.Sound steps source settled tried t where
  here : settled[node] = true
  itsCost : t.costs[node] = cost
  last : ∀ other : Fin n, settled[other] = true → t.costs[other] ≤ cost

namespace Tree

variable {steps : Network n α} {source : Fin n} {settled : Table n Bool} {node : Fin n} {cost : α}
  {tried tried' : Fin n → Fin n × α → Prop} {t : Tree n α}

/-- Less is known if fewer steps count as tried. -/
theorem Sound.mono (h : Sound steps source settled tried t)
    (fewer : ∀ node step, tried' node step → tried node step) : Sound steps source settled tried' t :=
  { h with
    origin := fun node step member => h.origin node step (fewer node step member)
    relaxed := fun node step member => h.relaxed node step (fewer node step member) }

theorem Expanding.mono (h : Expanding steps source settled node cost tried t)
    (fewer : ∀ node step, tried' node step → tried node step) :
    Expanding steps source settled node cost tried' t :=
  { h with toSound := h.toSound.mono fewer }

/-- A step that is passed over changes nothing; it counts as tried if its node is cheap enough. -/
theorem Expanding.keep (h : Expanding steps source settled node cost tried t) {step : Fin n × α}
    (cheap : cost + step.2 < Scalar.unreachable → t.costs[step.1] ≤ cost + step.2) :
    Expanding steps source settled node cost (fun u st => tried u st ∨ (u = node ∧ st = step)) t :=
  { h with
    origin := by
      rintro u st (before | ⟨rfl, rfl⟩)
      · exact h.origin u st before
      · exact h.here
    relaxed := by
      rintro u st (before | ⟨rfl, rfl⟩)
      · exact h.relaxed u st before
      · rw [h.itsCost]
        exact cheap }

variable [CostLaws α]

omit [CostLaws α] in
theorem costs_reach (t : Tree n α) (node next : Fin n) (cost : α) (x : Fin n) :
    (t.reach node next cost).costs[x] = if next = x then cost else t.costs[x] :=
  Table.getElem_set _ _ _ _

omit [CostLaws α] in
theorem predecessors_reach_of_ne (t : Tree n α) (node : Fin n) {next x : Fin n} (cost : α)
    (other : next ≠ x) : (t.reach node next cost).predecessors[x] = t.predecessors[x] :=
  Table.getElem_set_of_ne _ _ other

omit [CostLaws α] in
theorem mem_frontier_reach {t : Tree n α} {node next : Fin n} {cost : α} {candidate : Candidate n α} :
    candidate ∈ (t.reach node next cost).frontier.toList
      ↔ candidate = ⟨cost, t.pushed + 1, next⟩ ∨ candidate ∈ t.frontier.toList :=
  Heap.mem_push

section Reach

variable (h : Expanding steps source settled node cost tried t) {next : Fin n} {weight : α}
  (waits : settled[next] = false) (cheaper : cost + weight < t.costs[next])

include waits in
omit [Scalar α] [CostLaws α] in
theorem ne_of_settled {x : Fin n} (done : settled[x] = true) : next ≠ x := by
  rintro rfl
  rw [waits] at done
  cases done

include waits in
omit [CostLaws α] in
/-- The costs of settled nodes stay. -/
theorem costs_reach_of_settled {x : Fin n} (done : settled[x] = true) (price : α) :
    (t.reach node next price).costs[x] = t.costs[x] := by
  rw [costs_reach, if_neg (ne_of_settled waits done)]

include cheaper in
/-- No node becomes more expensive. -/
theorem costs_reach_le (x : Fin n) : (t.reach node next (cost + weight)).costs[x] ≤ t.costs[x] := by
  rw [costs_reach]
  split
  · next same =>
    rw [← same]
    exact Std.le_of_lt cheaper
  · exact Std.le_refl _

include h waits

omit [CostLaws α] in
/-- The node that is reached has the node that is expanded before it. -/
theorem Expanding.parent_reach (member : (next, weight) ∈ steps node) (x : Fin n) (other : x ≠ source)
    (found : (t.reach node next (cost + weight)).costs[x] < Scalar.unreachable) :
    ∃ (previous : Fin n) (w : α),
      (t.reach node next (cost + weight)).predecessors[x] = some previous
        ∧ settled[previous] = true ∧ (x, w) ∈ steps previous
        ∧ (t.reach node next (cost + weight)).costs[x]
          = (t.reach node next (cost + weight)).costs[previous] + w := by
  by_cases same : next = x
  · subst same
    refine ⟨node, weight, Table.getElem_set_self _ _ _, h.here, member, ?_⟩
    rw [costs_reach, if_pos rfl, costs_reach_of_settled waits h.here, h.itsCost]
  · rw [costs_reach, if_neg same] at found ⊢
    obtain ⟨previous, w, before, done, leads, sum⟩ := h.parent x other found
    refine ⟨previous, w, ?_, done, leads, ?_⟩
    · rw [predecessors_reach_of_ne _ _ _ same, before]
    · rw [costs_reach_of_settled waits done, sum]

omit waits [CostLaws α] in
/-- Every node that is reached waits at its cost. -/
theorem Expanding.waiting_reach (x : Fin n) (open' : settled[x] = false)
    (found : (t.reach node next (cost + weight)).costs[x] < Scalar.unreachable) :
    ∃ candidate ∈ (t.reach node next (cost + weight)).frontier.toList,
      candidate.node = x ∧ candidate.cost = (t.reach node next (cost + weight)).costs[x] := by
  by_cases same : next = x
  · subst same
    refine ⟨_, mem_frontier_reach.2 (.inl rfl), rfl, ?_⟩
    rw [costs_reach, if_pos rfl]
  · rw [costs_reach, if_neg same] at found ⊢
    obtain ⟨candidate, listed, its, costs⟩ := h.waiting x open' found
    exact ⟨candidate, mem_frontier_reach.2 (.inr listed), its, costs⟩

include cheaper

/-- The step to the node counts as tried. -/
theorem Expanding.relaxed_reach (u : Fin n) (st : Fin n × α)
    (listed : tried u st ∨ (u = node ∧ st = (next, weight)))
    (below : (t.reach node next (cost + weight)).costs[u] + st.2 < Scalar.unreachable) :
    (t.reach node next (cost + weight)).costs[st.1]
      ≤ (t.reach node next (cost + weight)).costs[u] + st.2 := by
  rcases listed with before | ⟨rfl, rfl⟩
  · rw [costs_reach_of_settled waits (h.origin u st before)] at below ⊢
    exact Std.le_trans (costs_reach_le cheaper _) (h.relaxed u st before below)
  · rw [costs_reach_of_settled waits h.here, h.itsCost, costs_reach, if_pos rfl]
    exact Std.le_refl _

/-- A cheaper path to a node that is not settled is recorded, and the node waits at its new cost. -/
theorem Expanding.reach (nonnegative : Scalar.zero ≤ weight) (member : (next, weight) ∈ steps node) :
    Expanding steps source settled node cost
      (fun u st => tried u st ∨ (u = node ∧ st = (next, weight))) (t.reach node next (cost + weight)) := by
  have farther : cost ≤ cost + weight := CostLaws.le_add cost nonnegative
  have low : Scalar.zero ≤ cost := h.itsCost ▸ h.nonnegative node
  have notSource : next ≠ source := by
    rintro rfl
    rw [h.sourceCost] at cheaper
    exact Std.not_lt.2 (Std.le_trans low farther) cheaper
  have inReach : cost + weight < Scalar.unreachable := Std.lt_of_lt_of_le cheaper (h.bounded next)
  constructor
  · constructor
    case sourceCost => rw [costs_reach, if_neg notSource, h.sourceCost]
    case sourceRoot => rw [predecessors_reach_of_ne _ _ _ notSource, h.sourceRoot]
    case nonnegative =>
      intro x
      rw [costs_reach]
      split
      · exact Std.le_trans low farther
      · exact h.nonnegative x
    case bounded =>
      intro x
      exact Std.le_trans (costs_reach_le cheaper x) (h.bounded x)
    case parent => exact h.parent_reach waits member
    case trail =>
      intro x done
      obtain ⟨nodes, back, distinct, inside⟩ := h.trail x done
      refine ⟨nodes, back.congr fun y listed => ?_, distinct, inside⟩
      exact predecessors_reach_of_ne _ _ _ (ne_of_settled waits (inside y listed))
    case reached =>
      intro x done
      rw [costs_reach_of_settled waits done]
      exact h.reached x done
    case cheapest =>
      intro x other done open'
      rw [costs_reach_of_settled waits done, costs_reach]
      split
      · exact Std.le_trans (h.last x done) farther
      · exact h.cheapest x other done open'
    case ordered => exact Heap.ordered_push Candidate.respects_before h.ordered _
    case entry =>
      intro candidate listed
      rcases mem_frontier_reach.1 listed with rfl | before
      · rw [costs_reach, if_pos rfl]
        exact ⟨Std.le_refl _, inReach⟩
      · obtain ⟨enough, below⟩ := h.entry candidate before
        exact ⟨Std.le_trans (costs_reach_le cheaper _) enough, below⟩
    case waiting => exact h.waiting_reach
    case origin =>
      rintro u st (before | ⟨rfl, rfl⟩)
      · exact h.origin u st before
      · exact h.here
    case relaxed => exact h.relaxed_reach waits cheaper
  case here => exact h.here
  case itsCost => rw [costs_reach_of_settled waits h.here, h.itsCost]
  case last =>
    intro x done
    rw [costs_reach_of_settled waits done]
    exact h.last x done

end Reach

/-- After a step was tried, it counts as tried. -/
theorem Expanding.relax (h : Expanding steps source settled node cost tried t) {step : Fin n × α}
    (nonnegative : Scalar.zero ≤ step.2) (member : step ∈ steps node) :
    Expanding steps source settled node cost (fun u st => tried u st ∨ (u = node ∧ st = step))
      (t.relax settled node cost step) := by
  obtain ⟨next, weight⟩ := step
  have low : Scalar.zero ≤ cost := h.itsCost ▸ h.nonnegative node
  unfold Tree.relax
  dsimp only
  by_cases done : settled[next] = true
  · rw [if_pos done]
    exact h.keep fun _ => Std.le_trans (h.last next done) (CostLaws.le_add cost nonnegative)
  rw [if_neg done]
  by_cases heavy : Scalar.unreachable ≤ weight
  · rw [if_pos heavy]
    refine h.keep fun below => absurd below (Std.not_lt.2 ?_)
    calc Scalar.unreachable
      _ ≤ weight := heavy
      _ ≤ Scalar.zero + weight := CostLaws.le_zero_add weight
      _ ≤ cost + weight := CostLaws.add_le_add_right weight low
  rw [if_neg heavy]
  by_cases cheaper : cost + weight < t.costs[next]
  · rw [if_pos cheaper]
    exact h.reach (Bool.eq_false_iff.2 done) cheaper nonnegative member
  · rw [if_neg cheaper]
    exact h.keep fun _ => Std.not_lt.1 cheaper

theorem Expanding.foldl {pending : List (Fin n × α)}
    (h : Expanding steps source settled node cost tried t)
    (nonnegative : ∀ step ∈ steps node, Scalar.zero ≤ step.2)
    (members : ∀ step ∈ pending, step ∈ steps node) :
    Expanding steps source settled node cost (fun u st => tried u st ∨ (u = node ∧ st ∈ pending))
      (pending.foldl (Tree.relax settled node cost) t) := by
  induction pending generalizing tried t with
  | nil =>
    refine h.mono ?_
    rintro u st (before | ⟨_, listed⟩)
    · exact before
    · cases listed
  | cons step rest ih =>
    have inside := members step List.mem_cons_self
    refine (ih (h.relax (nonnegative step inside) inside) fun other member =>
      members other (List.mem_cons_of_mem _ member)).mono ?_
    rintro u st (before | ⟨rfl, listed⟩)
    · exact .inl (.inl before)
    · rcases List.mem_cons.1 listed with rfl | later
      · exact .inl (.inr ⟨rfl, rfl⟩)
      · exact .inr ⟨rfl, later⟩

/-- After the expansion of a node, all its steps count as tried. -/
theorem Expanding.expand (h : Expanding steps source settled node cost tried t)
    (nonnegative : ∀ step ∈ steps node, Scalar.zero ≤ step.2) :
    Sound steps source settled (fun u st => tried u st ∨ (u = node ∧ st ∈ steps node))
      (t.expand steps settled node cost) :=
  (h.foldl nonnegative fun _ member => member).toSound

end Tree

/-! ## The invariant of a search -/

/-- A search keeps its promises: all steps from settled nodes have been tried. -/
def Search.Sound (steps : Network n α) (source : Fin n) (s : Search n α) : Prop :=
  s.tree.Sound steps source s.settled fun node step => s.settled[node] = true ∧ step ∈ steps node

namespace Search

variable {steps : Network n α} {source : Fin n} {s : Search n α} {candidate : Candidate n α}
  {rest : Heap (Candidate n α)}

theorem settled_start (source v : Fin n) : ¬(start source : Search n α).settled[v] = true := by
  rw [start, Table.getElem_replicate]
  exact Bool.false_ne_true

theorem costs_start (source v : Fin n) :
    (start source : Search n α).tree.costs[v] = if source = v then Scalar.zero else Scalar.unreachable := by
  rw [start, Tree.start, Table.getElem_set, Table.getElem_replicate]

theorem predecessors_start (source v : Fin n) : (start source : Search n α).tree.predecessors[v] = none :=
  Table.getElem_replicate _ _

theorem frontier_start (source : Fin n) :
    (start source : Search n α).tree.frontier.toList = [⟨Scalar.zero, 0, source⟩] :=
  List.perm_singleton.1 (Heap.perm_push .empty _)

omit [Scalar α] in
theorem order_settle (s : Search n α) (node : Fin n) (rest : Heap (Candidate n α)) :
    (s.settle node rest).order.toList = s.order.toList ++ [node] :=
  Array.toList_push

omit [Scalar α] in
theorem settled_settle (s : Search n α) (node : Fin n) (rest : Heap (Candidate n α)) (v : Fin n) :
    (s.settle node rest).settled[v] = true ↔ v = node ∨ s.settled[v] = true := by
  rw [Search.settle, Table.getElem_set]
  by_cases same : node = v
  · simp [same]
  · simp [same, Ne.symm same]

omit [Scalar α] in
theorem waits_of_settle {node v : Fin n} (waits : (s.settle node rest).settled[v] = false) :
    v ≠ node ∧ s.settled[v] = false := by
  rw [← Bool.not_eq_true, settled_settle, not_or, Bool.not_eq_true] at waits
  exact waits

variable [CostLaws α]

/-- Before the first step the source waits at cost zero, and nothing else is known. -/
theorem sound_start (steps : Network n α) (source : Fin n) :
    (Search.start source : Search n α).Sound steps source := by
  have waits : ∀ {node : Fin n}, ¬(Search.start source : Search n α).settled[node] = true := settled_start source _
  have costs := costs_start (α := α) source
  have only : ∀ candidate : Candidate n α,
      candidate ∈ (Search.start source : Search n α).tree.frontier.toList
        ↔ candidate = ⟨Scalar.zero, 0, source⟩ := by
    intro candidate
    rw [frontier_start, List.mem_singleton]
  have low : (Scalar.zero : α) ≤ Scalar.unreachable := Std.le_of_lt CostLaws.zero_lt_unreachable
  constructor
  case sourceCost => rw [costs, if_pos rfl]
  case sourceRoot => exact predecessors_start source source
  case nonnegative =>
    intro node
    rw [costs]
    split
    · exact Std.le_refl _
    · exact low
  case bounded =>
    intro node
    rw [costs]
    split
    · exact low
    · exact Std.le_refl _
  case parent =>
    intro node other found
    rw [costs, if_neg fun same => other same.symm] at found
    exact absurd found Std.lt_irrefl
  case trail =>
    intro node done
    exact absurd done waits
  case reached =>
    intro node done
    exact absurd done waits
  case cheapest =>
    intro node _ done
    exact absurd done waits
  case ordered => exact Heap.ordered_push Candidate.respects_before (h := .empty) trivial _
  case entry =>
    intro candidate listed
    rw [only] at listed
    subst listed
    rw [costs, if_pos rfl]
    exact ⟨Std.le_refl _, CostLaws.zero_lt_unreachable⟩
  case waiting =>
    intro node _ found
    refine ⟨⟨Scalar.zero, 0, source⟩, (only _).2 rfl, ?_⟩
    rw [costs] at found ⊢
    split
    · next same => exact ⟨same, rfl⟩
    · next other =>
      rw [if_neg other] at found
      exact absurd found Std.lt_irrefl
  case origin =>
    intro node step member
    exact member.1
  case relaxed =>
    intro node step member
    exact absurd member.1 waits

/-- Passing over an entry of a settled node loses nothing. -/
theorem Sound.skip (h : s.Sound steps source)
    (popped : s.tree.frontier.pop? Candidate.before = some (candidate, rest))
    (done : s.settled[candidate.node] = true) : (s.skip rest).Sound steps source :=
  { h with
    ordered := Heap.ordered_of_pop? Candidate.respects_before h.ordered popped
    entry := fun other listed =>
      h.entry other ((Heap.perm_of_pop? popped).mem_iff.2 (List.mem_cons_of_mem _ listed))
    waiting := by
      intro node waits found
      obtain ⟨other, listed, its, costs⟩ := h.waiting node waits found
      refine ⟨other, ?_, its, costs⟩
      rcases List.mem_cons.1 ((Heap.perm_of_pop? popped).mem_iff.1 listed) with rfl | stays
      · subst its
        rw [show s.settled[other.node] = false from waits] at done
        cases done
      · exact stays }

/-- An entry that leaves the frontier for a node that waits has the cost of the node, and no other node
that waits is cheaper. -/
theorem Sound.cost_of_pop? (h : s.Sound steps source)
    (popped : s.tree.frontier.pop? Candidate.before = some (candidate, rest))
    (waits : s.settled[candidate.node] = false) :
    s.tree.costs[candidate.node] = candidate.cost ∧ candidate.cost < Scalar.unreachable
      ∧ ∀ other : Fin n, s.settled[other] = false → candidate.cost ≤ s.tree.costs[other] := by
  have first : ∀ other ∈ s.tree.frontier.toList, candidate.cost ≤ other.cost := by
    intro other listed
    rcases List.mem_cons.1 ((Heap.perm_of_pop? popped).mem_iff.1 listed) with rfl | stays
    · exact Std.le_refl _
    · exact Heap.le_of_pop? h.ordered popped stays
  have taken := (Heap.perm_of_pop? popped).mem_iff.2 List.mem_cons_self
  obtain ⟨enough, below⟩ := h.entry candidate taken
  have least : ∀ other : Fin n, s.settled[other] = false → candidate.cost ≤ s.tree.costs[other] := by
    intro other open'
    by_cases found : s.tree.costs[other] < Scalar.unreachable
    · obtain ⟨entry, listed, its, costs⟩ := h.waiting other open' found
      exact costs ▸ first entry listed
    · exact Std.le_trans (Std.le_of_lt below) (Std.not_lt.1 found)
  exact ⟨Std.le_antisymm enough (least candidate.node waits), below, least⟩

omit [CostLaws α] in
/-- From a node that is reached, the predecessors lead back to the source through settled nodes. -/
theorem Sound.trail_of_waiting (h : s.Sound steps source) {node : Fin n}
    (waits : s.settled[node] = false) (found : s.tree.costs[node] < Scalar.unreachable) :
    ∃ nodes, Back s.tree.predecessors source node nodes ∧ nodes.Nodup
      ∧ ∀ x ∈ nodes, x = node ∨ s.settled[x] = true := by
  by_cases same : node = source
  · subst same
    exact ⟨[node], .source, List.pairwise_singleton _ _, fun x listed => .inl (List.mem_singleton.1 listed)⟩
  obtain ⟨previous, weight, link, done, -, -⟩ := h.parent node same found
  obtain ⟨nodes, back, distinct, inside⟩ := h.trail previous done
  refine ⟨nodes ++ [node], .step link back, ?_, ?_⟩
  · refine List.nodup_append.2 ⟨distinct, List.pairwise_singleton _ _, ?_⟩
    rintro x listed y last rfl
    have done' := inside x listed
    rw [List.mem_singleton.1 last, waits] at done'
    cases done'
  · intro x listed
    rcases List.mem_append.1 listed with earlier | last
    · exact .inr (inside x earlier)
    · exact .inl (List.mem_singleton.1 last)

/-- A node that is settled comes after all settled nodes and has its steps before it. -/
theorem Sound.settle (h : s.Sound steps source)
    (popped : s.tree.frontier.pop? Candidate.before = some (candidate, rest))
    (waits : s.settled[candidate.node] = false) :
    (s.settle candidate.node rest).tree.Expanding steps source
      (s.settle candidate.node rest).settled candidate.node candidate.cost
      fun node step => s.settled[node] = true ∧ step ∈ steps node := by
  obtain ⟨itsCost, below, least⟩ := h.cost_of_pop? popped waits
  have before : ∀ {x : Fin n}, s.settled[x] = true → (s.settled.set candidate.node true)[x] = true := by
    intro x done
    rw [Table.getElem_set, done, ite_self]
  have after : ∀ {x : Fin n}, (s.settled.set candidate.node true)[x] = true →
      x = candidate.node ∨ s.settled[x] = true := by
    intro x done
    rw [Table.getElem_set] at done
    split at done
    · next same => exact .inl same.symm
    · exact .inr done
  have open' : ∀ {x : Fin n}, (s.settled.set candidate.node true)[x] = false →
      x ≠ candidate.node ∧ s.settled[x] = false := by
    intro x still
    rw [Table.getElem_set] at still
    split at still
    · cases still
    · next other => exact ⟨fun same => other same.symm, still⟩
  have here : (s.settled.set candidate.node true)[candidate.node] = true :=
    Table.getElem_set_self _ _ _
  have last : ∀ x : Fin n, (s.settled.set candidate.node true)[x] = true →
      s.tree.costs[x] ≤ candidate.cost := by
    intro x done
    rcases after done with rfl | earlier
    · exact Std.le_of_eq itsCost
    · exact itsCost ▸ h.cheapest x candidate.node earlier waits
  refine ⟨⟨h.sourceCost, h.sourceRoot, h.nonnegative, h.bounded, ?parent, ?trail, ?reached, ?cheapest,
    Heap.ordered_of_pop? Candidate.respects_before h.ordered popped, ?entry, ?waiting, ?origin,
    h.relaxed⟩, here, itsCost, last⟩
  case parent =>
    intro node other found
    obtain ⟨previous, weight, link, done, leads, sum⟩ := h.parent node other found
    exact ⟨previous, weight, link, before done, leads, sum⟩
  case trail =>
    intro node done
    rcases after done with rfl | earlier
    · obtain ⟨nodes, back, distinct, inside⟩ := h.trail_of_waiting waits (itsCost ▸ below)
      refine ⟨nodes, back, distinct, fun x listed => ?_⟩
      rcases inside x listed with rfl | earlier
      · exact here
      · exact before earlier
    · obtain ⟨nodes, back, distinct, inside⟩ := h.trail node earlier
      exact ⟨nodes, back, distinct, fun x listed => before (inside x listed)⟩
  case reached =>
    intro node done
    exact Std.lt_of_le_of_lt (last node done) below
  case cheapest =>
    intro node other done still
    exact Std.le_trans (last node done) (least other (open' still).2)
  case entry =>
    exact fun other listed =>
      h.entry other ((Heap.perm_of_pop? popped).mem_iff.2 (List.mem_cons_of_mem _ listed))
  case waiting =>
    intro node still found
    obtain ⟨other, listed, its, costs⟩ := h.waiting node (open' still).2 found
    refine ⟨other, ?_, its, costs⟩
    rcases List.mem_cons.1 ((Heap.perm_of_pop? popped).mem_iff.1 listed) with rfl | stays
    · exact absurd its.symm (open' still).1
    · exact stays
  case origin =>
    intro node step member
    exact before member.1

/-- A search keeps its promises when a node is settled and expanded. -/
theorem Sound.expand (h : s.Sound steps source)
    (nonnegative : ∀ node, ∀ step ∈ steps node, Scalar.zero ≤ step.2)
    (popped : s.tree.frontier.pop? Candidate.before = some (candidate, rest))
    (waits : s.settled[candidate.node] = false) :
    ((s.settle candidate.node rest).expand steps candidate.node candidate.cost).Sound steps source := by
  have all : ∀ node step,
      (s.settle candidate.node rest).settled[node] = true ∧ step ∈ steps node →
        (s.settled[node] = true ∧ step ∈ steps node)
          ∨ (node = candidate.node ∧ step ∈ steps candidate.node) := by
    rintro node step ⟨done, member⟩
    rw [Search.settle, Table.getElem_set] at done
    split at done
    · next same => exact .inr ⟨same.symm, same ▸ member⟩
    · exact .inl ⟨done, member⟩
  have sound := ((h.settle popped waits).expand (nonnegative candidate.node)).mono all
  unfold Search.expand Search.announce
  split <;> exact sound

end Search

end NetworkAnalysis.ShortestPath
