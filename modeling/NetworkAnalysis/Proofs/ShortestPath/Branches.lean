import NetworkAnalysis.Proofs.ShortestPath.Frontier

/-!
# The tree of predecessors for any weights

Weights may be negative, infinite or not numbers at all, and distances need not grow along a path. What keeps the
predecessors a tree is the order in which nodes are settled: a predecessor is settled, nothing about a settled node
changes, and so the way back from a node runs through that order backwards (`Tree.Formed.trail`). Entries that were
overtaken stay in the frontier, but a node becomes cheaper with every entry that is made for it, so that the first of
them to come out is the last one that was made (`Tree.Entered`).
-/

namespace NetworkAnalysis.ShortestPath

open Scalar

variable {n : Nat} {α : Type} [Scalar α]

namespace Tree

/-- A node has been reached: it is the source, or some step has led to it. -/
def Reached (source : Fin n) (t : Tree n α) (v : Fin n) : Prop :=
  v = source ∨ t.predecessors[v] ≠ none

/-- What holds of the costs and predecessors when some nodes are settled in an order. -/
structure Formed (steps : Network n α) (source : Fin n) (settled : Table n Bool) (order : List (Fin n))
    (t : Tree n α) : Prop where
  sourceCost : t.costs[source] = Scalar.zero
  sourceRoot : t.predecessors[source] = none
  hop : ∀ v u : Fin n, t.predecessors[v] = some u →
    settled[u] = true
      ∧ ∃ weight, (v, weight) ∈ steps u ∧ weight < unreachable ∧ t.costs[v] = t.costs[u] + weight
  below : ∀ v, t.Reached source v → Below t.costs[v] unreachable
  unreached : ∀ v, ¬t.Reached source v → t.costs[v] = unreachable
  trail : ∀ v : Fin n, settled[v] = true → ∃ nodes, Back t.predecessors source v nodes ∧ nodes.Sublist order

/-- What holds of the frontier when some entries were made. -/
structure Entered (source : Fin n) (settled : Table n Bool) (entries : List (Candidate n α)) (t : Tree n α) :
    Prop where
  count : entries.length = t.pushed + 1
  numbered : ∀ (k : Nat) (candidate : Candidate n α), entries[k]? = some candidate → candidate.sequence = k
  entry : ∀ candidate ∈ entries, t.Reached source candidate.node ∧ AtMost t.costs[candidate.node] candidate.cost
  single : ∀ a ∈ entries, ∀ b ∈ entries, a.node = b.node → a.cost = b.cost → a = b
  nodup : t.frontier.toList.Nodup
  inside : ∀ candidate ∈ t.frontier.toList, candidate ∈ entries
  waiting : ∀ v : Fin n, settled[v] = false → t.Reached source v →
    ∃ candidate ∈ t.frontier.toList, candidate.node = v ∧ candidate.cost = t.costs[v]

variable {steps : Network n α} {source : Fin n} {settled : Table n Bool} {order : List (Fin n)}
  {entries : List (Candidate n α)} {t : Tree n α}

theorem Entered.sequence_lt (h : t.Entered source settled entries) {candidate : Candidate n α}
    (listed : candidate ∈ entries) : candidate.sequence < t.pushed + 1 := by
  obtain ⟨k, found⟩ := List.getElem?_of_mem listed
  rw [h.numbered k candidate found, ← h.count]
  exact (List.getElem?_eq_some_iff.1 found).1

theorem Entered.eq_of_sequence (h : t.Entered source settled entries) {a b : Candidate n α}
    (listed : a ∈ entries) (listed' : b ∈ entries) (same : a.sequence = b.sequence) : a = b := by
  obtain ⟨k, found⟩ := List.getElem?_of_mem listed
  obtain ⟨l, found'⟩ := List.getElem?_of_mem listed'
  rw [h.numbered k a found, h.numbered l b found'] at same
  subst same
  exact Option.some.inj (found.symm.trans found')

theorem reached_reach {node next : Fin n} {cost : α} {v : Fin n} :
    (t.reach node next cost).Reached source v ↔ v = next ∨ t.Reached source v := by
  unfold Reached reach
  rw [Table.getElem_set]
  by_cases same : next = v
  · simp [same]
  · simp [same, Ne.symm same]

/-! ## Steps that count -/

section Reach

variable [OrderedCosts α] {node next : Fin n} {weight : α} (waits : settled[next] = false)
  (cheaper : t.costs[node] + weight < t.costs[next])

include cheaper in
theorem costs_reach_atMost (v : Fin n) : AtMost (t.reach node next (t.costs[node] + weight)).costs[v] t.costs[v] := by
  rw [costs_reach]
  split
  · next same => exact same ▸ (OrderedCosts.below_of_lt cheaper).atMost
  · exact AtMost.refl _

section Formed

variable (h : t.Formed steps source settled order) (here : settled[node] = true) (light : ¬unreachable ≤ weight)
include h cheaper

/-- The new cost of a node is below its old one, and so below what counts as unreachable. -/
theorem Formed.below_unreachable : Below (t.costs[node] + weight) unreachable := by
  have less := OrderedCosts.below_of_lt cheaper
  by_cases found : t.Reached source next
  · exact less.trans_atMost (h.below next found).atMost
  · rwa [h.unreached next found] at less

include here waits light

theorem Formed.hop_reach (member : (next, weight) ∈ steps node) (v u : Fin n)
    (link : (t.reach node next (t.costs[node] + weight)).predecessors[v] = some u) :
    settled[u] = true ∧ ∃ w, (v, w) ∈ steps u ∧ w < unreachable
      ∧ (t.reach node next (t.costs[node] + weight)).costs[v]
        = (t.reach node next (t.costs[node] + weight)).costs[u] + w := by
  by_cases same : next = v
  · subst same
    rw [reach, Table.getElem_set_self] at link
    obtain rfl := Option.some.inj link
    refine ⟨here, weight, member, OrderedCosts.lt_unreachable cheaper light, ?_⟩
    rw [costs_reach, if_pos rfl, costs_reach_of_settled waits here]
  · rw [predecessors_reach_of_ne _ _ _ same] at link
    obtain ⟨done, w, leads, below, sum⟩ := h.hop v u link
    refine ⟨done, w, leads, below, ?_⟩
    rw [costs_reach, if_neg same, costs_reach_of_settled waits done, sum]

theorem Formed.reach (listed : ∀ v ∈ order, settled[v] = true) (opened : settled[source] = true)
    (member : (next, weight) ∈ steps node) :
    (t.reach node next (t.costs[node] + weight)).Formed steps source settled order := by
  have notSource : next ≠ source := ne_of_settled waits opened
  constructor
  case sourceCost => rw [costs_reach, if_neg notSource, h.sourceCost]
  case sourceRoot => rw [predecessors_reach_of_ne _ _ _ notSource, h.sourceRoot]
  case hop => exact h.hop_reach waits cheaper here light member
  case below =>
    intro v found
    rw [costs_reach]
    split
    · exact h.below_unreachable cheaper
    · next other => exact h.below v ((reached_reach.1 found).resolve_left (Ne.symm other))
  case unreached =>
    intro v apart
    rw [reached_reach, not_or] at apart
    rw [costs_reach, if_neg (Ne.symm apart.1), h.unreached v apart.2]
  case trail =>
    -- The way back leads through settled nodes, and only a node that waits gets another predecessor.
    intro v done
    obtain ⟨nodes, back, inOrder⟩ := h.trail v done
    refine ⟨nodes, back.congr fun x on => ?_, inOrder⟩
    exact predecessors_reach_of_ne _ _ _ (ne_of_settled waits (listed x (inOrder.subset on)))

end Formed

section Entered

variable (h : t.Entered source settled entries)
include h cheaper

/-- The new entry costs less than all earlier ones for its node. -/
theorem Entered.below_entry {candidate : Candidate n α} (member : candidate ∈ entries)
    (same : candidate.node = next) : Below (t.costs[node] + weight) candidate.cost := by
  have enough := (h.entry candidate member).2
  rw [same] at enough
  exact (OrderedCosts.below_of_lt cheaper).trans_atMost enough

/-- A step that makes its end cheaper leaves an entry behind all others. Its cost is below that of the earlier entries
for the same node, so that it is none of them. -/
theorem Entered.reach :
    (t.reach node next (t.costs[node] + weight)).Entered source settled
      (entries ++ [⟨t.costs[node] + weight, t.pushed + 1, next⟩]) := by
  constructor
  case count =>
    rw [List.length_append, h.count]
    rfl
  case numbered =>
    intro k candidate found
    rw [List.getElem?_append, h.count] at found
    split at found
    · exact h.numbered k candidate found
    · rw [List.getElem?_singleton] at found
      split at found
      · obtain rfl := Option.some.inj found
        show t.pushed + 1 = k
        omega
      · cases found
  case entry =>
    intro candidate made
    rcases List.mem_append.1 made with before | new
    · obtain ⟨found, enough⟩ := h.entry candidate before
      exact ⟨reached_reach.2 (.inr found), (costs_reach_atMost cheaper _).trans enough⟩
    · obtain rfl := List.mem_singleton.1 new
      rw [costs_reach, if_pos rfl]
      exact ⟨reached_reach.2 (.inl rfl), AtMost.refl _⟩
  case single =>
    intro a made b made' sameNode sameCost
    rcases List.mem_append.1 made with before | new <;> rcases List.mem_append.1 made' with before' | new'
    · exact h.single a before b before' sameNode sameCost
    · obtain rfl := List.mem_singleton.1 new'
      exact absurd sameCost.symm (h.below_entry cheaper before sameNode).ne
    · obtain rfl := List.mem_singleton.1 new
      exact absurd sameCost (h.below_entry cheaper before' sameNode.symm).ne
    · rw [List.mem_singleton.1 new, List.mem_singleton.1 new']
  case nodup =>
    refine (Heap.perm_push _ _).nodup_iff.2 (List.nodup_cons.2 ⟨fun old => ?_, h.nodup⟩)
    exact Nat.lt_irrefl _ (h.sequence_lt (h.inside _ old))
  case inside =>
    intro candidate there
    rcases mem_frontier_reach.1 there with rfl | before
    · exact List.mem_append_right _ List.mem_cons_self
    · exact List.mem_append_left _ (h.inside candidate before)
  case waiting =>
    intro v open' found
    by_cases same : next = v
    · subst same
      exact ⟨_, mem_frontier_reach.2 (.inl rfl), rfl, by rw [costs_reach, if_pos rfl]⟩
    · obtain ⟨candidate, there, its, costs⟩ :=
        h.waiting v open' ((reached_reach.1 found).resolve_left (Ne.symm same))
      refine ⟨candidate, mem_frontier_reach.2 (.inr there), its, ?_⟩
      rw [costs_reach, if_neg same, costs]

end Entered

end Reach

/-! ## Expansions -/

section Expand

variable [OrderedCosts α] {node : Fin n}

/-- What holds of a tree while the steps from a settled node are tried. -/
structure Growing (steps : Network n α) (source : Fin n) (settled : Table n Bool) (order : List (Fin n))
    (node : Fin n) (cost : α) (entries : List (Candidate n α)) (t : Tree n α) : Prop where
  formed : t.Formed steps source settled order
  entered : t.Entered source settled entries
  itsCost : t.costs[node] = cost

theorem Growing.relax {cost : α} {step : Fin n × α} (h : t.Growing steps source settled order node cost entries)
    (listed : ∀ v ∈ order, settled[v] = true) (opened : settled[source] = true) (here : settled[node] = true)
    (member : step ∈ steps node) :
    (t.relax settled node cost step).Growing steps source settled order node cost
      (entries ++ t.entered settled node cost step) := by
  rcases relax_spec settled node cost t step with ⟨same, idle, -⟩ | ⟨waits, light, cheaper, reached, made⟩
  · rwa [same, idle, List.append_nil]
  · obtain ⟨formed, entered, rfl⟩ := h
    rw [reached, made]
    exact ⟨formed.reach waits cheaper here light listed opened member, entered.reach cheaper,
      costs_reach_of_settled waits here _⟩

theorem Growing.expand {cost : α} (h : t.Growing steps source settled order node cost entries)
    (listed : ∀ v ∈ order, settled[v] = true) (opened : settled[source] = true) (here : settled[node] = true) :
    (t.expand steps settled node cost).Growing steps source settled order node cost
      (entries ++ t.made settled node cost (steps node)) :=
  expand_induction entries (P := fun _ entries t => t.Growing steps source settled order node cost entries) h
    fun _ member growing => growing.relax listed opened here member

end Expand

theorem length_made (settled : Table n Bool) (node : Fin n) (cost : α) (t : Tree n α) (pending : List (Fin n × α)) :
    (t.made settled node cost pending).length ≤ pending.length := by
  induction pending generalizing t with
  | nil => exact Nat.le_refl _
  | cons step rest ih =>
    have later := ih (t.relax settled node cost step)
    rw [made, List.length_append, List.length_cons]
    rcases relax_spec settled node cost t step with ⟨-, idle, -⟩ | ⟨-, -, -, -, made⟩
    · rw [idle, List.length_nil]
      omega
    · rw [made, List.length_singleton]
      omega

theorem length_frontier_expand (steps : Network n α) (settled : Table n Bool) (node : Fin n) (cost : α)
    (t : Tree n α) :
    (t.expand steps settled node cost).frontier.toList.length
      = t.frontier.toList.length + (t.made settled node cost (steps node)).length := by
  refine expand_induction []
    (P := fun _ entries t' => t'.frontier.toList.length = t.frontier.toList.length + entries.length) rfl ?_
  intro tried entries t' step _ same
  rcases relax_spec settled node cost t' step with ⟨passed, idle, -⟩ | ⟨-, -, -, reached, made⟩
  · rw [passed, idle, List.append_nil, same]
  · rw [reached, made, List.length_append, List.length_singleton, ← Nat.add_assoc, ← same]
    exact (Heap.perm_push _ _).length_eq

end Tree

/-! ## The invariant of a search -/

/-- What holds of a search and the entries that it has made. -/
structure Search.Formed (steps : Network n α) (source : Fin n) (entries : List (Candidate n α)) (s : Search n α) :
    Prop where
  traced : s.Traced
  formed : s.tree.Formed steps source s.settled s.order.toList
  entered : s.tree.Entered source s.settled entries
  opening : s.settled[source] = false → ∀ candidate ∈ s.tree.frontier.toList, candidate.node = source
  polls : s.polls + s.tree.frontier.toList.length = entries.length
  size : entries.length ≤ 1 + (s.order.toList.map fun v => (steps v).length).sum

namespace Search

variable {steps : Network n α} {source : Fin n} {entries : List (Candidate n α)} {s : Search n α}
  {candidate : Candidate n α} {rest : Heap (Candidate n α)}

variable [OrderedCosts α]

/-- Before the first step the source is the only node that is reached, with the only entry. -/
theorem formed_start (steps : Network n α) (source : Fin n) :
    (start source : Search n α).Formed steps source (Recorded.start source).entries := by
  have costs := costs_start (α := α) source
  have root := predecessors_start (α := α) source
  have frontier := frontier_start (α := α) source
  have reached : ∀ v, (start source : Search n α).tree.Reached source v ↔ v = source := by
    intro v
    rw [Tree.Reached, root]
    simp
  refine ⟨traced_start source, ?formed, ?entered, ?opening, congrArg (0 + List.length ·) frontier, Nat.le_refl _⟩
  case formed =>
    refine ⟨by rw [costs, if_pos rfl], root source, ?hop, ?below, ?unreached, ?trail⟩
    case hop =>
      intro v u link
      rw [root] at link
      cases link
    case below =>
      intro v found
      rw [costs, if_pos ((reached v).1 found).symm]
      exact OrderedCosts.zero_below_unreachable
    case unreached =>
      intro v apart
      rw [costs, if_neg fun same => apart ((reached v).2 same.symm)]
    case trail =>
      intro v done
      exact absurd done (settled_start source v)
  case entered =>
    refine ⟨rfl, ?numbered, ?entry, ?single, ?nodup, ?inside, ?waiting⟩
    case numbered =>
      intro k c found
      rw [Recorded.start, List.getElem?_singleton] at found
      split at found
      · next first => exact Option.some.inj found ▸ first.symm
      · cases found
    case entry =>
      intro c made
      obtain rfl := List.mem_singleton.1 made
      refine ⟨(reached source).2 rfl, ?_⟩
      rw [costs, if_pos rfl]
      exact AtMost.refl _
    case single =>
      intro a made b made' _ _
      rw [List.mem_singleton.1 made, List.mem_singleton.1 made']
    case nodup =>
      rw [frontier]
      exact List.nodup_singleton _
    case inside =>
      intro c there
      rwa [frontier] at there
    case waiting =>
      intro v _ found
      obtain rfl := (reached v).1 found
      refine ⟨⟨Scalar.zero, 0, v⟩, frontier ▸ List.mem_cons_self, rfl, ?_⟩
      rw [costs, if_pos rfl]
  case opening =>
    intro _ c there
    rw [frontier] at there
    rw [List.mem_singleton.1 there]

/-- An entry that leaves the frontier for a node that waits has the cost of the node. -/
theorem Formed.cost_of_least (h : s.Formed steps source entries)
    (least : s.tree.frontier.Least Candidate.before candidate rest) (waits : s.settled[candidate.node] = false) :
    s.tree.costs[candidate.node] = candidate.cost := by
  obtain ⟨found, enough⟩ := h.entered.entry candidate (h.entered.inside candidate least.mem)
  obtain ⟨last, there, its, costs⟩ := h.entered.waiting candidate.node waits found
  refine AtMost.antisymm enough ?_
  -- The entry with the cost of the node has not left the frontier before.
  rcases least.eq_or_mem there with rfl | stays
  · rw [costs]
    exact AtMost.refl _
  · rw [← costs]
    exact Candidate.atMost_of_order (Candidate.not_before_iff.1 (least.first last stays))

omit [OrderedCosts α] in
theorem Formed.polls_rest (h : s.Formed steps source entries)
    (least : s.tree.frontier.Least Candidate.before candidate rest) :
    s.polls + 1 + rest.toList.length = entries.length := by
  have polls := h.polls
  rw [least.length_eq] at polls
  omega

omit [OrderedCosts α] in
theorem Formed.skip (h : s.Formed steps source entries)
    (least : s.tree.frontier.Least Candidate.before candidate rest) (done : s.settled[candidate.node] = true) :
    (s.skip rest).Formed steps source entries where
  traced := { h.traced with }
  formed := { h.formed with }
  entered :=
    { h.entered with
      nodup := (least.perm.nodup_iff.1 h.entered.nodup).of_cons
      inside := fun other stays => h.entered.inside other (least.mem_of_mem stays)
      waiting := by
        intro v waits found
        obtain ⟨other, there, its, costs⟩ := h.entered.waiting v waits found
        refine ⟨other, (least.eq_or_mem there).resolve_left ?_, its, costs⟩
        rintro rfl
        rw [its, show s.settled[v] = false from waits] at done
        cases done }
  opening waits other stays := h.opening waits other (least.mem_of_mem stays)
  polls := h.polls_rest least
  size := h.size

omit [OrderedCosts α] in
theorem Formed.trail_of_reached (h : s.Formed steps source entries) {v : Fin n} (found : s.tree.Reached source v) :
    ∃ nodes, Back s.tree.predecessors source v nodes ∧ nodes.Sublist (s.order.toList ++ [v]) := by
  by_cases same : v = source
  · subst same
    exact ⟨[v], .source, List.sublist_append_right _ _⟩
  obtain ⟨u, link⟩ := Option.ne_none_iff_exists'.1 (found.resolve_left same)
  obtain ⟨nodes, back, inOrder⟩ := h.formed.trail u (h.formed.hop v u link).1
  exact ⟨nodes ++ [v], .step link back, inOrder.append (List.Sublist.refl _)⟩

omit [OrderedCosts α] in
/-- When a node is settled, the way back from it leads through nodes that were settled before. -/
theorem Formed.settle (h : s.Formed steps source entries)
    (least : s.tree.frontier.Least Candidate.before candidate rest) (waits : s.settled[candidate.node] = false) :
    (s.settle candidate.node rest).Formed steps source entries := by
  have order := order_settle s candidate.node rest
  have before : ∀ {v : Fin n}, s.settled[v] = true → (s.settle candidate.node rest).settled[v] = true :=
    fun done => (settled_settle _ _ _ _).2 (.inr done)
  constructor
  case traced => exact h.traced.settle waits rest
  case formed =>
    refine { h.formed with hop := ?hop, trail := ?trail }
    case hop =>
      intro v u link
      obtain ⟨done, leads⟩ := h.formed.hop v u link
      exact ⟨before done, leads⟩
    case trail =>
      intro v done
      rw [order]
      rcases (settled_settle _ _ _ _).1 done with rfl | done
      · exact h.trail_of_reached (h.entered.entry candidate (h.entered.inside candidate least.mem)).1
      · obtain ⟨nodes, back, inOrder⟩ := h.formed.trail v done
        exact ⟨nodes, back, inOrder.trans (List.sublist_append_left _ _)⟩
  case entered =>
    refine { h.entered with nodup := ?nodup, inside := ?inside, waiting := ?waiting }
    case nodup => exact (least.perm.nodup_iff.1 h.entered.nodup).of_cons
    case inside => exact fun other stays => h.entered.inside other (least.mem_of_mem stays)
    case waiting =>
      intro v open' found
      have still := waits_of_settle open'
      obtain ⟨other, there, its, costs⟩ := h.entered.waiting v still.2 found
      refine ⟨other, (least.eq_or_mem there).resolve_left ?_, its, costs⟩
      rintro rfl
      exact still.1 its.symm
  case opening =>
    intro open' other stays
    have still := waits_of_settle open'
    exact absurd (h.opening still.2 candidate least.mem).symm still.1
  case polls => exact h.polls_rest least
  case size =>
    have := h.size
    rw [order, List.map_append, List.sum_append]
    omega

omit [OrderedCosts α] in
/-- The source is settled before any other node. -/
theorem Formed.opened (h : s.Formed steps source entries)
    (least : s.tree.frontier.Least Candidate.before candidate rest) :
    (s.settle candidate.node rest).settled[source] = true := by
  -- Until then, all entries are for the source.
  by_contra closed
  have waits := waits_of_settle (Bool.eq_false_iff.2 closed)
  exact waits.1 (h.opening waits.2 candidate least.mem).symm

theorem Formed.growing (h : s.Formed steps source entries)
    (least : s.tree.frontier.Least Candidate.before candidate rest) (waits : s.settled[candidate.node] = false) :
    (s.settle candidate.node rest).tree.Growing steps source (s.settle candidate.node rest).settled
      (s.settle candidate.node rest).order.toList candidate.node candidate.cost entries :=
  ⟨(h.settle least waits).formed, (h.settle least waits).entered, h.cost_of_least least waits⟩

theorem Formed.expand (h : s.Formed steps source entries)
    (least : s.tree.frontier.Least Candidate.before candidate rest) (waits : s.settled[candidate.node] = false) :
    ((s.settle candidate.node rest).expand steps candidate.node candidate.cost).Formed steps source
      (entries ++ (s.settle candidate.node rest).tree.made (s.settle candidate.node rest).settled candidate.node
        candidate.cost (steps candidate.node)) := by
  have settled := h.settle least waits
  have here : (s.settle candidate.node rest).settled[candidate.node] = true := Table.getElem_set_self _ _ _
  have opened := h.opened least
  have grown := (h.growing least waits).expand (fun v there => (settled.traced.listed v).1 there) opened here
  refine ⟨settled.traced.expand here steps _, ?formed, ?entered, ?opening, ?polls, ?size⟩
  case formed =>
    rw [tree_expand, settled_expand, order_expand]
    exact grown.formed
  case entered =>
    rw [tree_expand, settled_expand]
    exact grown.entered
  case opening =>
    rw [settled_expand, opened]
    intro closed
    cases closed
  case polls =>
    rw [polls_expand, tree_expand, Tree.length_frontier_expand, List.length_append, ← Nat.add_assoc, settled.polls]
  case size =>
    have made := Tree.length_made (s.settle candidate.node rest).settled candidate.node candidate.cost
      (s.settle candidate.node rest).tree (steps candidate.node)
    have size := h.size
    rw [order_expand, order_settle, List.map_append, List.sum_append, List.map_singleton, List.sum_singleton,
      List.length_append]
    omega

/-- Every step of a search keeps its form, and so every state that it reaches has it. -/
theorem formed_of_reaches {r : Recorded n α} (reached : r.Reaches steps source) :
    r.search.Formed steps source r.entries := by
  induction reached with
  | refl => exact formed_start steps source
  | tail _ step ih =>
    cases step with
    | skip least done => exact ih.skip least done
    | settle least waits => exact ih.expand least waits

omit [OrderedCosts α] in
/-- However a search ends, the predecessors have their form, and no more entries were taken out than there are steps
from the settled nodes, and one. -/
theorem Formed.of_stops {target : Option (Fin n)} {result : Search n α × Bool} (h : s.Formed steps source entries)
    (stops : s.Stops target result) :
    result.1.Traced ∧ result.1.tree.Formed steps source result.1.settled result.1.order.toList
      ∧ result.1.polls ≤ 1 + (result.1.order.toList.map fun v => (steps v).length).sum := by
  have size := h.size
  have polls := h.polls
  cases stops with
  | done empty =>
    refine ⟨h.traced, h.formed, ?_⟩
    dsimp only
    omega
  | stopped more =>
    have waiting := List.length_pos_iff.2 more
    refine ⟨{ h.traced with }, h.formed, ?_⟩
    dsimp only
    omega
  | target least waits asked =>
    have settled := h.settle least waits
    have polls' := settled.polls
    have size' := settled.size
    refine ⟨settled.traced, settled.formed, ?_⟩
    dsimp only
    omega

end Search

/-! ## Results -/

namespace Back

variable {predecessors : Table n (Option (Fin n))} {source x : Fin n} {nodes : List (Fin n)}

theorem exists_eq_append (back : Back predecessors source x nodes) : ∃ before, nodes = before ++ [x] := by
  cases back with
  | source => exact ⟨[], rfl⟩
  | step link back => exact ⟨_, rfl⟩

/-- On the way back to the source, a node comes right after its predecessor. -/
theorem predecessor_of_infix (back : Back predecessors source x nodes) {u v : Fin n} (pair : [u, v] <:+: nodes) :
    predecessors[v] = some u := by
  induction back with
  | source => exact absurd pair.length_le (by simp)
  | @step node previous nodes link back ih =>
    rcases List.infix_concat_iff.1 pair with last | inside
    · have split : [u] ++ [v] <:+ nodes ++ [node] := last
      obtain ⟨before, rfl⟩ := back.exists_eq_append
      obtain ⟨split', same⟩ := (List.suffix_append_inj_of_length_eq (by rfl)).1 split
      have split' : [] ++ [u] <:+ before ++ [previous] := split'
      obtain ⟨-, same'⟩ := (List.suffix_append_inj_of_length_eq (by rfl)).1 split'
      rw [List.singleton_inj.1 same, List.singleton_inj.1 same']
      exact link
    · exact ih inside

end Back

/-- The predecessors of the settled nodes form a tree along the steps of a network. -/
structure ShortestPaths.Branches (steps : Network n α) (p : ShortestPaths n α) : Prop where
  /-- The nodes in order are the settled ones. -/
  listed : ∀ v : Fin n, v ∈ p.order.toList ↔ p.isSettled v = true
  /-- No node is settled twice. -/
  nodup : p.order.toList.Nodup
  /-- The tree grows from the source. -/
  distance_source : p.distance p.source = Scalar.zero
  /-- Nothing comes before the source. -/
  predecessor_source : p.predecessor p.source = none
  /-- From a settled node, the predecessors lead back to the source. -/
  back : ∀ x : Fin n, p.isSettled x = true → Back p.predecessors p.source x (p.pathTo x).nodes
  /-- No node is met twice on the way, and the nodes were settled in the order of the path. -/
  inOrder : ∀ x : Fin n, p.isSettled x = true →
    (p.pathTo x).nodes.Nodup ∧ (p.pathTo x).nodes.Sublist p.order.toList
  /-- One node leads to the next by a step whose weight makes up the difference of their distances. -/
  hop : ∀ x u v : Fin n, p.isSettled x = true → [u, v] <:+: (p.pathTo x).nodes →
    p.isSettled u = true ∧ p.isSettled v = true ∧ [u, v].Sublist p.order.toList
      ∧ ∃ weight, (v, weight) ∈ steps u ∧ weight < unreachable ∧ p.distance v = p.distance u + weight

/-- The trails back from the settled nodes are the paths that the results give, as no node is met twice on them. -/
theorem Search.branches_of_formed {steps : Network n α} {source : Fin n} {s : Search n α} (traced : s.Traced)
    (formed : s.tree.Formed steps source s.settled s.order.toList) (target : Option (Fin n)) :
    ShortestPaths.Branches steps
      { source, target, costs := s.tree.costs, predecessors := s.tree.predecessors, settled := s.settled,
        order := s.order } := by
  set p : ShortestPaths n α :=
    { source, target, costs := s.tree.costs, predecessors := s.tree.predecessors, settled := s.settled,
      order := s.order }
  have way : ∀ x : Fin n, s.settled[x] = true →
      Back s.tree.predecessors source x (p.pathTo x).nodes ∧ (p.pathTo x).nodes.Sublist s.order.toList := by
    intro x done
    obtain ⟨nodes, back, inOrder⟩ := formed.trail x done
    rw [ShortestPaths.pathTo_val, ShortestPaths.pathToNode, if_pos done]
    show Back _ _ _ (ShortestPaths.chain s.tree.predecessors n x []) ∧ _
    rw [ShortestPaths.chain_eq_of_nodup formed.sourceRoot back (traced.nodup.sublist inOrder)]
    exact ⟨back, inOrder⟩
  constructor
  case listed =>
    intro v
    rw [ShortestPaths.isSettled_val]
    exact traced.listed v
  case nodup => exact traced.nodup
  case distance_source =>
    rw [ShortestPaths.distance_val]
    exact formed.sourceCost
  case predecessor_source =>
    rw [ShortestPaths.predecessor_val]
    exact formed.sourceRoot
  case back =>
    intro x done
    rw [ShortestPaths.isSettled_val] at done
    exact (way x done).1
  case inOrder =>
    intro x done
    rw [ShortestPaths.isSettled_val] at done
    exact ⟨traced.nodup.sublist (way x done).2, (way x done).2⟩
  case hop =>
    intro x u v done pair
    rw [ShortestPaths.isSettled_val] at done ⊢
    obtain ⟨back, inOrder⟩ := way x done
    have both := pair.sublist.trans inOrder
    obtain ⟨-, leads⟩ := formed.hop v u (back.predecessor_of_infix pair)
    rw [ShortestPaths.isSettled_val, ShortestPaths.distance_val, ShortestPaths.distance_val]
    exact ⟨(traced.listed u).1 (both.subset List.mem_cons_self),
      (traced.listed v).1 (both.subset (List.mem_cons_of_mem _ List.mem_cons_self)), both, leads⟩

variable [OrderedCosts α]

/-- Whatever the weights are, and however the search ends, the predecessors form a tree, and the search has taken no
more entries out of its frontier than the graph has relationships to follow, and one. -/
theorem compute_branches {g : Graph α} (loaded : g.Loaded) (query : Query g.size) (watch : Watch) :
    let report := compute g query watch
    report.polls ≤ 1 + ∑ v : Fin g.size, g.degree v query.direction
      ∧ report.value.source = query.source ∧ report.value.Branches (g.legs query.direction) := by
  obtain ⟨storage, settings, origin, loaded⟩ := loaded
  have shows := (Loading.stored_of_loadInto loaded).shows
  have same := shows.steps_eq_legs query.direction
  obtain ⟨r, reached, stops⟩ :=
    Search.exists_stops_start (g.steps query.direction) query.source query.target watch
  obtain ⟨traced, formed, polls⟩ := (Search.formed_of_reaches reached).of_stops stops
  refine ⟨?_, rfl, same ▸ Search.branches_of_formed traced formed query.target⟩
  have degrees : ∀ v, (g.steps query.direction v).length = g.degree v query.direction := by
    intro v
    rw [shows.degree_eq_length, Graph.steps, List.length_map]
  simp only [degrees] at polls
  rw [← List.sum_toFinset _ traced.nodup] at polls
  exact Nat.le_trans polls (Nat.add_le_add_left (Finset.sum_le_univ_sum_of_nonneg fun _ => Nat.zero_le _) 1)

/-- Weights that are negative, infinite, not a number, or as large as what counts as unreachable, on a circle too. -/
def rough : Source Float where
  declared := 3
  nodes := [1, 2, 3]
  relationships
    | 1 => [(2, some (-1.5)), (3, some (0.0 / 0.0)), (1, some (-2.0))]
    | 2 => [(3, some (-1.0 / 0.0)), (1, some (1.0 / 0.0))]
    | _ => [(2, some Scalar.unreachable), (1, some (-0.0))]

theorem heavy_rough : Loading.Heavy { weighted := true, defaultWeight := none } rough := by
  intro _ _ label _ entry member
  unfold rough at member
  dsimp only at member
  split at member <;> revert entry <;> simp

theorem exists_load_rough : ∃ g : Graph Float,
    Loading.loadInto .dense { weighted := true, defaultWeight := none } rough = .ok g := by
  have accepted : ∃ g : Graph Float,
      Loading.loadInto .dense { weighted := true, defaultWeight := none } rough = .ok g
        ∧ g.ids.labels.toList = rough.nodes :=
    Loading.exists_loadInto (by decide) rfl (by decide) (by decide) heavy_rough (by decide)
  obtain ⟨g, loaded, -⟩ := accepted
  exact ⟨g, loaded⟩

/-- Doubles with such weights are no exception. -/
theorem compute_branches_rough : ∃ g : Graph Float, g.Loaded
    ∧ ∀ (query : Query g.size) (watch : Watch),
      (compute g query watch).value.Branches (g.legs query.direction) := by
  obtain ⟨g, loaded⟩ := exists_load_rough
  have isLoaded : g.Loaded := ⟨_, _, _, loaded⟩
  exact ⟨g, isLoaded, fun query watch => (compute_branches isLoaded query watch).2.2⟩

end NetworkAnalysis.ShortestPath
