import NetworkAnalysis.Proofs.ShortestPath.Arrangement

/-!
# Ties

When no weight is negative, nodes are settled in the order of the entries that had their costs (`Tree.Ranked`): by cost,
and by when these entries were made where costs are equal. A node keeps the predecessor that was the first to give it
its cost. All steps of a node that was settled earlier have been tried by then, so a cheaper path excludes that one of
them made up the new cost already.
-/

namespace NetworkAnalysis.ShortestPath

open Scalar

variable {n : Nat} {α : Type} [Scalar α]

theorem sublist_or_sublist {β : Type} {l : List β} {u v : β} (left : u ∈ l) (right : v ∈ l) (other : u ≠ v) :
    [u, v].Sublist l ∨ [v, u].Sublist l := by
  obtain ⟨before, after, rfl⟩ := List.append_of_mem left
  rcases List.mem_append.1 right with early | late
  · exact .inr ((List.singleton_sublist.2 early).append (List.singleton_sublist.2 List.mem_cons_self))
  · have after := (List.mem_cons.1 late).resolve_left other.symm
    refine .inl (.trans ?_ (List.sublist_append_right before _))
    exact (List.singleton_sublist.2 after).cons_cons u

theorem sublist_of_prefix {β : Type} {l l' : List β} (first : l <+: l') (nodup : l'.Nodup) {u v : β} (among : v ∈ l)
    (pair : [u, v].Sublist l') : [u, v].Sublist l := by
  obtain ⟨rest, rfl⟩ := first
  obtain ⟨left, right, same, early, late⟩ := List.sublist_append_iff.1 pair
  rcases List.eq_nil_or_concat' right with rfl | ⟨init, last, rfl⟩
  · rw [same, List.append_nil]
    exact early
  · rw [← List.append_assoc, show [u, v] = [u] ++ [v] from rfl] at same
    obtain rfl : v = last := List.singleton_inj.1 (List.append_inj' same rfl).2
    exact absurd (late.subset (List.mem_append_right _ List.mem_cons_self))
      (List.disjoint_of_nodup_append nodup among)

namespace Tree

/-- An entry for a node that has the node's cost. -/
def Final (entries : List (Candidate n α)) (t : Tree n α) (v : Fin n) (candidate : Candidate n α) : Prop :=
  candidate ∈ entries ∧ candidate.node = v ∧ candidate.cost = t.costs[v]

/-- A node was settled after all others. -/
def Latest (order : List (Fin n)) (node : Fin n) : Prop :=
  ∀ u ∈ order, u = node ∨ [u, node].Sublist order

/-- What holds besides when no weight is negative and some steps from the settled nodes have been tried. -/
structure Ranked (steps tried : Network n α) (settled : Table n Bool) (order : List (Fin n))
    (entries : List (Candidate n α)) (t : Tree n α) : Prop where
  isCost : ∀ v : Fin n, IsCost t.costs[v]
  ranks : order.Pairwise fun u v => ∃ a b, t.Final entries u a ∧ t.Final entries v b ∧ a.order b = .lt
  ahead : ∀ u ∈ order, ∃ a, t.Final entries u a ∧ ∀ other ∈ t.frontier.toList, a.order other = .lt
  relaxed : ∀ u : Fin n, settled[u] = true → ∀ step ∈ tried u, AtMost t.costs[step.1] (t.costs[u] + step.2)
  first : ∀ (u v p : Fin n) (weight : α), settled[u] = true → (v, weight) ∈ steps u →
    t.costs[u] + weight = t.costs[v] → t.predecessors[v] = some p → u = p ∨ [p, u].Sublist order

variable {steps tried : Network n α} {source : Fin n} {settled : Table n Bool} {order : List (Fin n)}
  {entries : List (Candidate n α)} {t : Tree n α} {node : Fin n}

theorem Ranked.atMost_of_latest [OrderedCosts α] (h : t.Ranked steps tried settled order entries)
    (latest : Latest order node) {u : Fin n} (listed : u ∈ order) : AtMost t.costs[u] t.costs[node] := by
  rcases latest u listed with rfl | pair
  · exact AtMost.refl _
  · obtain ⟨a, b, ⟨-, -, cost⟩, ⟨-, -, cost'⟩, less⟩ := List.pairwise_iff_forall_sublist.1 h.ranks pair
    rw [← cost, ← cost']
    exact Candidate.atMost_of_order (less ▸ rfl)

theorem Final.eq (entered : t.Entered source settled entries) {v : Fin n} {a b : Candidate n α}
    (first : t.Final entries v a) (second : t.Final entries v b) : a = b :=
  entered.single a first.1 b second.1 (first.2.1.trans second.2.1.symm) (first.2.2.trans second.2.2.symm)

/-- Of two nodes of equal cost, the one settled first had its cost first. -/
theorem Ranked.sequence_lt [OrderedCosts α] (h : t.Ranked steps tried settled order entries)
    (entered : t.Entered source settled entries) {u v : Fin n} {a b : Candidate n α} (first : t.Final entries u a)
    (second : t.Final entries v b) (same : t.costs[u] = t.costs[v]) (pair : [u, v].Sublist order) :
    a.sequence < b.sequence := by
  obtain ⟨a', b', first', second', less⟩ := List.pairwise_iff_forall_sublist.1 h.ranks pair
  obtain rfl := first.eq entered first'
  obtain rfl := second.eq entered second'
  exact Candidate.sequence_lt_of_order (by rw [first.2.2, second.2.2, same]) less

omit [Scalar α] in
theorem mem_update_append {step other : Fin n × α} {pending : List (Fin n × α)} {u : Fin n} :
    other ∈ Function.update steps node (pending ++ [step]) u
      ↔ other ∈ Function.update steps node pending u ∨ u = node ∧ other = step := by
  by_cases same : u = node
  · subst same
    simp
  · simp [same]

theorem Formed.exists_predecessor (h : t.Formed steps source settled order) {v : Fin n} (done : settled[v] = true)
    (notSource : v ≠ source) : ∃ u, t.predecessors[v] = some u ∧ [u, v].Sublist order := by
  obtain ⟨nodes, back, inOrder⟩ := h.trail v done
  cases back with
  | source => exact absurd rfl notSource
  | @step _ u _ link back =>
    obtain ⟨before, rfl⟩ := back.exists_eq_append
    have pair : [u, v].Sublist (before ++ [u] ++ [v]) := by
      rw [List.append_assoc]
      exact List.sublist_append_right before _
    exact ⟨u, link, pair.trans inOrder⟩

theorem Formed.atMost_unreachable [OrderedCosts α] (h : t.Formed steps source settled order) (v : Fin n) :
    AtMost t.costs[v] unreachable := by
  by_cases found : t.Reached source v
  · exact (h.below v found).atMost
  · rw [h.unreached v found]
    exact AtMost.refl _

omit [Scalar α] in
theorem latest_concat (order : List (Fin n)) (node : Fin n) : Latest (order ++ [node]) node := by
  intro u among
  rcases List.mem_append.1 among with early | last
  · exact .inr ((List.singleton_sublist.2 early).append (List.Sublist.refl [node]))
  · exact .inl (List.mem_singleton.1 last)

/-! ## One step -/

section Relax

variable [GrowingCosts α] {next : Fin n} {weight : α} {pending : List (Fin n × α)}
  (h : t.Ranked steps (Function.update steps node pending) settled order entries)
  (formed : t.Formed steps source settled order) (entered : t.Entered source settled entries)
  (listed : ∀ v : Fin n, v ∈ order ↔ settled[v] = true) (latest : Latest order node) (here : settled[node] = true)
  (nonnegative : zero ≤ weight)

include h listed latest nonnegative

include formed in
/-- A step that is passed over would not have made its end cheaper. -/
theorem Ranked.pass
    (reason : settled[next] = true ∨ unreachable ≤ weight ∨ ¬t.costs[node] + weight < t.costs[next]) :
    t.Ranked steps (Function.update steps node (pending ++ [(next, weight)])) settled order entries := by
  refine { h with relaxed := fun u done step among => ?_ }
  rcases mem_update_append.1 among with before | ⟨rfl, rfl⟩
  · exact h.relaxed u done step before
  rcases reason with done' | heavy | dearer
  · have enough := h.atMost_of_latest latest ((listed next).2 done')
    exact enough.trans (GrowingCosts.atMost_add (h.isCost u) nonnegative)
  · have enough := formed.atMost_unreachable next
    exact enough.trans (GrowingCosts.unreachable_atMost_add (h.isCost u) nonnegative heavy)
  · exact not_below.1 (mt (GrowingCosts.lt_of_below ((h.isCost u).add nonnegative) (h.isCost next)) dearer)

variable (waits : settled[next] = false) (cheaper : t.costs[node] + weight < t.costs[next])

include waits cheaper here entered

/-- A step that makes its end cheaper keeps the ranks. Its entry costs no less than the nodes that are settled, and the
steps tried before give no cost as low as the new one. -/
theorem Ranked.reach :
    (t.reach node next (t.costs[node] + weight)).Ranked steps
      (Function.update steps node (pending ++ [(next, weight)])) settled order
      (entries ++ [⟨t.costs[node] + weight, t.pushed + 1, next⟩]) := by
  have costs : ∀ {v : Fin n}, settled[v] = true →
      (t.reach node next (t.costs[node] + weight)).costs[v] = t.costs[v] :=
    fun done => costs_reach_of_settled waits done _
  have final : ∀ {v : Fin n} {a : Candidate n α}, v ∈ order → t.Final entries v a →
      (t.reach node next (t.costs[node] + weight)).Final
        (entries ++ [⟨t.costs[node] + weight, t.pushed + 1, next⟩]) v a := by
    rintro v a among ⟨made, itsNode, itsCost⟩
    exact ⟨List.mem_append_left _ made, itsNode, itsCost.trans (costs ((listed v).1 among)).symm⟩
  constructor
  case isCost =>
    intro v
    rw [costs_reach]
    split
    · exact (h.isCost node).add nonnegative
    · exact h.isCost v
  case ranks =>
    refine h.ranks.imp_of_mem fun among among' ⟨a, b, itsFinal, itsFinal', less⟩ => ?_
    exact ⟨a, b, final among itsFinal, final among' itsFinal', less⟩
  case ahead =>
    intro u among
    obtain ⟨a, itsFinal, before⟩ := h.ahead u among
    refine ⟨a, final among itsFinal, fun other there => ?_⟩
    rcases mem_frontier_reach.1 there with rfl | old
    -- The new entry costs no less than the node under way, which costs no less than all nodes before it.
    · refine Candidate.order_of_atMost ?_ (entered.sequence_lt itsFinal.1)
      rw [itsFinal.2.2]
      exact (h.atMost_of_latest latest among).trans (GrowingCosts.atMost_add (h.isCost node) nonnegative)
    · exact before other old
  case relaxed =>
    intro u done step among
    rw [costs done]
    rcases mem_update_append.1 among with before | ⟨rfl, rfl⟩
    · exact (costs_reach_atMost cheaper _).trans (h.relaxed u done step before)
    · rw [costs_reach, if_pos rfl]
      exact AtMost.refl _
  case first =>
    intro u v p weight' done leads sum link
    rw [costs done] at sum
    by_cases same : next = v
    · subst same
      rw [Tree.reach, Table.getElem_set_self] at link
      obtain rfl := Option.some.inj link
      by_cases itself : u = node
      · exact .inl itself
      -- The step was tried before, and gave a cost that is above the new one.
      have enough := h.relaxed u done (next, weight') (by rwa [Function.update_of_ne itself])
      rw [costs_reach, if_pos rfl] at sum
      dsimp only at enough
      rw [sum] at enough
      exact absurd (OrderedCosts.below_of_lt cheaper) (not_below.2 enough)
    · rw [predecessors_reach_of_ne _ _ _ same] at link
      rw [costs_reach, if_neg same] at sum
      exact h.first u v p weight' done leads sum link

end Relax

section Expand

variable [GrowingCosts α] {cost : α} (growing : t.Growing steps source settled order node cost entries)
  (listed : ∀ v : Fin n, v ∈ order ↔ settled[v] = true) (latest : Latest order node) (here : settled[node] = true)

include growing listed latest here

theorem Ranked.relax {pending : List (Fin n × α)} {step : Fin n × α}
    (h : t.Ranked steps (Function.update steps node pending) settled order entries) (nonnegative : zero ≤ step.2) :
    (t.relax settled node cost step).Ranked steps (Function.update steps node (pending ++ [step])) settled order
      (entries ++ t.entered settled node cost step) := by
  obtain ⟨formed, entered, itsCost⟩ := growing
  rw [← itsCost]
  rcases relax_spec settled node t.costs[node] t step with
    ⟨same, idle, reason⟩ | ⟨waits, -, cheaper, reached, made⟩
  · rw [same, idle, List.append_nil]
    exact h.pass formed listed latest nonnegative reason
  · rw [reached, made]
    exact h.reach entered listed latest here nonnegative waits cheaper

theorem Ranked.expand (opened : settled[source] = true)
    (h : t.Ranked steps (Function.update steps node []) settled order entries)
    (nonnegative : ∀ step ∈ steps node, zero ≤ step.2) :
    (t.expand steps settled node cost).Ranked steps steps settled order
      (entries ++ t.made settled node cost (steps node)) := by
  have expanded :
      (t.expand steps settled node cost).Growing steps source settled order node cost
          (entries ++ t.made settled node cost (steps node))
        ∧ (t.expand steps settled node cost).Ranked steps (Function.update steps node (steps node)) settled order
          (entries ++ t.made settled node cost (steps node)) := by
    refine expand_induction entries
      (P := fun pending entries t => t.Growing steps source settled order node cost entries
        ∧ t.Ranked steps (Function.update steps node pending) settled order entries) ⟨growing, h⟩ ?_
    intro pending entries t step member ⟨growing, ranked⟩
    exact ⟨growing.relax (fun v among => (listed v).1 among) opened here member,
      ranked.relax growing listed latest here (nonnegative step member)⟩
  rw [Function.update_eq_self] at expanded
  exact expanded.2

end Expand

end Tree

/-! ## Runs -/

namespace Search

variable {steps : Network n α} {source : Fin n} {entries : List (Candidate n α)} {s : Search n α}
  {candidate : Candidate n α} {rest : Heap (Candidate n α)}

omit [Scalar α] in
theorem latest_settle (s : Search n α) (node : Fin n) (rest : Heap (Candidate n α)) :
    Tree.Latest (s.settle node rest).order.toList node := by
  rw [order_settle]
  exact Tree.latest_concat _ _

theorem ranked_start [GrowingCosts α] (steps : Network n α) (source : Fin n) (entries : List (Candidate n α)) :
    (start source : Search n α).tree.Ranked steps steps (start source : Search n α).settled [] entries := by
  constructor
  case isCost =>
    intro v
    rw [costs_start]
    split
    · exact IsCost.zero
    · exact IsCost.unreachable
  case ranks => exact .nil
  case ahead => exact fun u outside => absurd outside List.not_mem_nil
  case relaxed => exact fun u done => absurd done (settled_start source u)
  case first => exact fun u v p weight done => absurd done (settled_start source u)

theorem ranked_skip (ranked : s.tree.Ranked steps steps s.settled s.order.toList entries)
    (least : s.tree.frontier.Least Candidate.before candidate rest) :
    (s.skip rest).tree.Ranked steps steps (s.skip rest).settled (s.skip rest).order.toList entries :=
  { ranked with
    ahead := by
      intro u among
      obtain ⟨a, final, before⟩ := ranked.ahead u among
      exact ⟨a, final, fun other stays => before other (least.mem_of_mem stays)⟩ }

variable [OrderedCosts α]

/-- No entry that stays in the frontier compares equal to the one that is taken out. -/
theorem Formed.order_of_least (h : s.Formed steps source entries)
    (least : s.tree.frontier.Least Candidate.before candidate rest) {other : Candidate n α}
    (stays : other ∈ rest.toList) : candidate.order other = .lt := by
  rcases Ordering.isLE_iff_eq_lt_or_eq_eq.1 (Candidate.not_before_iff.1 (least.first other stays)) with less | same
  · exact less
  · have itself := h.entered.eq_of_sequence (h.entered.inside candidate least.mem)
      (h.entered.inside other (least.mem_of_mem stays)) (Candidate.sequence_eq_of_order same)
    exact absurd (itself ▸ stays) (List.nodup_cons.1 (least.perm.nodup_iff.1 h.entered.nodup)).1

/-- A node that is settled ranks behind those settled before it and ahead of all entries that still wait. None of its
steps has been tried yet. -/
theorem Formed.ranked_settle (h : s.Formed steps source entries)
    (ranked : s.tree.Ranked steps steps s.settled s.order.toList entries)
    (least : s.tree.frontier.Least Candidate.before candidate rest) (waits : s.settled[candidate.node] = false) :
    (s.settle candidate.node rest).tree.Ranked steps (Function.update steps candidate.node [])
      (s.settle candidate.node rest).settled (s.settle candidate.node rest).order.toList entries := by
  have itsFinal : s.tree.Final entries candidate.node candidate :=
    ⟨h.entered.inside candidate least.mem, rfl, (h.cost_of_least least waits).symm⟩
  rw [order_settle]
  refine { ranked with ranks := ?ranks, ahead := ?ahead, relaxed := ?relaxed, first := ?first }
  case ranks =>
    refine List.pairwise_append.2 ⟨ranked.ranks, List.pairwise_singleton _ _, fun u among v last => ?_⟩
    obtain rfl := List.mem_singleton.1 last
    obtain ⟨a, final, before⟩ := ranked.ahead u among
    exact ⟨a, candidate, final, itsFinal, before candidate least.mem⟩
  case ahead =>
    intro u among
    rcases List.mem_append.1 among with old | last
    · obtain ⟨a, final, before⟩ := ranked.ahead u old
      exact ⟨a, final, fun other stays => before other (least.mem_of_mem stays)⟩
    · obtain rfl := List.mem_singleton.1 last
      exact ⟨candidate, itsFinal, fun other stays => h.order_of_least least stays⟩
  case relaxed =>
    intro u done step among
    by_cases itself : u = candidate.node
    · subst itself
      rw [Function.update_self] at among
      cases among
    · rw [Function.update_of_ne itself] at among
      exact ranked.relaxed u (((settled_settle _ _ _ _).1 done).resolve_left itself) step among
  case first =>
    intro u v p weight done leads sum link
    -- A predecessor was settled before, so it does not come after the node settled last.
    rcases (settled_settle _ _ _ _).1 done with rfl | done
    · have early := (h.traced.listed p).2 (h.formed.hop v p link).1
      exact (Tree.latest_concat _ _ p (List.mem_append_left _ early)).imp_left Eq.symm
    · exact (ranked.first u v p weight done leads sum link).imp_right (·.trans (List.sublist_append_left _ _))

end Search

/-- Every step of a search keeps the ranks of the settled nodes. -/
theorem Recorded.Reaches.ranked [GrowingCosts α] {steps : Network n α} {source : Fin n} {r : Recorded n α}
    (reached : r.Reaches steps source) (nonnegative : ∀ node, ∀ step ∈ steps node, zero ≤ step.2) :
    r.search.tree.Ranked steps steps r.search.settled r.search.order.toList r.entries := by
  induction reached with
  | refl => exact Search.ranked_start steps source _
  | tail before step ih =>
    have h := Search.formed_of_reaches before
    cases step with
    | skip least done => exact Search.ranked_skip ih least
    | settle least waits =>
      have listed := (h.settle least waits).traced.listed
      dsimp only
      rw [Search.tree_expand, Search.settled_expand, Search.order_expand]
      exact (h.ranked_settle ih least waits).expand (h.growing least waits) listed (Search.latest_settle _ _ _)
        (Table.getElem_set_self _ _ _) (h.opened least) (nonnegative _)

/-! ## Results -/

namespace ShortestPaths

/-- The entry with which a node got its distance is the one at some place. -/
def EnteredAt (entries : List (Candidate n α)) (p : ShortestPaths n α) (v : Fin n) (place : Nat) : Prop :=
  ∃ candidate, entries[place]? = some candidate ∧ candidate.node = v ∧ candidate.cost = p.distance v

/-- A step from a settled node makes up the distance of another node. -/
def LeadsTo (steps : Network n α) (p : ShortestPaths n α) (u v : Fin n) : Prop :=
  p.isSettled u = true ∧ ∃ weight, (v, weight) ∈ steps u ∧ p.distance u + weight = p.distance v

/-- Of several ways at the same cost, the one found first counts. -/
structure FirstFound (steps : Network n α) (entries : List (Candidate n α)) (p : ShortestPaths n α) : Prop where
  /-- The nodes in order are the settled ones. -/
  listed : ∀ v : Fin n, v ∈ p.order.toList ↔ p.isSettled v = true
  /-- No node is settled twice. -/
  nodup : p.order.toList.Nodup
  /-- A node that is settled later is not closer. -/
  ascending : p.order.toList.Pairwise fun u v : Fin n => p.distance u ≤ p.distance v
  /-- With one of the entries a settled node got its distance. -/
  entered : ∀ v : Fin n, p.isSettled v = true → ∃! place, p.EnteredAt entries v place
  /-- Of two nodes at the same distance, the one that got it first is settled first. -/
  ties : ∀ (u v : Fin n) (j k : Nat), p.isSettled u = true → p.isSettled v = true → p.distance u = p.distance v →
    p.EnteredAt entries u j → p.EnteredAt entries v k → ([u, v].Sublist p.order.toList ↔ j < k)
  /-- The predecessor of a node is the first settled one of those from which a step makes up its distance. -/
  predecessor : ∀ v : Fin n, p.isSettled v = true → v ≠ p.source →
    ∃ u, p.predecessor v = some u ∧ [u, v].Sublist p.order.toList ∧ p.LeadsTo steps u v
      ∧ ∀ other, p.LeadsTo steps other v → other = u ∨ [u, other].Sublist p.order.toList

end ShortestPaths

section Results

variable {steps : Network n α} {source : Fin n} {entries : List (Candidate n α)}

/-- Where the settled nodes are ranked, the way found first counts. A settled node got its distance with the only entry
that has it, and these entries rank like their nodes. -/
theorem Search.firstFound_of_ranked [GrowingCosts α] {s : Search n α} (h : s.Formed steps source entries)
    (ranked : s.tree.Ranked steps steps s.settled s.order.toList entries) (target : Option (Fin n)) :
    ShortestPaths.FirstFound steps entries
      { source, target, costs := s.tree.costs, predecessors := s.tree.predecessors, settled := s.settled,
        order := s.order } := by
  set p : ShortestPaths n α :=
    { source, target, costs := s.tree.costs, predecessors := s.tree.predecessors, settled := s.settled,
      order := s.order }
  have listed : ∀ v : Fin n, v ∈ p.order.toList ↔ p.isSettled v = true := by
    intro v
    rw [ShortestPaths.isSettled_val]
    exact h.traced.listed v
  have final : ∀ {v : Fin n} {place : Nat}, p.EnteredAt entries v place →
      ∃ a, s.tree.Final entries v a ∧ a.sequence = place := by
    rintro v place ⟨a, found, itsNode, itsCost⟩
    rw [ShortestPaths.distance_val] at itsCost
    exact ⟨a, ⟨List.mem_of_getElem? found, itsNode, itsCost⟩, h.entered.numbered place a found⟩
  have less : ∀ {u v : Fin n} {j k : Nat}, p.distance u = p.distance v → p.EnteredAt entries u j →
      p.EnteredAt entries v k → [u, v].Sublist p.order.toList → j < k := by
    intro u v j k same entry entry' pair
    obtain ⟨a, itsFinal, rfl⟩ := final entry
    obtain ⟨b, itsFinal', rfl⟩ := final entry'
    rw [ShortestPaths.distance_val, ShortestPaths.distance_val] at same
    exact ranked.sequence_lt h.entered itsFinal itsFinal' same pair
  refine ⟨listed, h.traced.nodup, ?ascending, ?entered, ?ties, ?predecessor⟩
  case ascending =>
    refine ranked.ranks.imp ?_
    rintro u v ⟨a, b, ⟨-, -, cost⟩, ⟨-, -, cost'⟩, before⟩
    rw [ShortestPaths.distance_val, ShortestPaths.distance_val]
    refine GrowingCosts.le_of_atMost (ranked.isCost u) (ranked.isCost v) ?_
    rw [← cost, ← cost']
    exact Candidate.atMost_of_order (before ▸ rfl)
  case entered =>
    intro v done
    obtain ⟨a, ⟨made, itsNode, itsCost⟩, -⟩ := ranked.ahead v ((listed v).2 done)
    obtain ⟨place, found⟩ := List.getElem?_of_mem made
    have entry : p.EnteredAt entries v place := ⟨a, found, itsNode, by rw [ShortestPaths.distance_val]; exact itsCost⟩
    refine ⟨place, entry, fun other entry' => ?_⟩
    obtain ⟨b, itsFinal, rfl⟩ := final entry'
    obtain ⟨b', itsFinal', rfl⟩ := final entry
    rw [itsFinal.eq h.entered itsFinal']
  case ties =>
    intro u v j k done done' same entry entry'
    refine ⟨less same entry entry', fun early => ?_⟩
    have other : u ≠ v := by
      rintro rfl
      obtain ⟨a, itsFinal, rfl⟩ := final entry
      obtain ⟨b, itsFinal', rfl⟩ := final entry'
      rw [itsFinal.eq h.entered itsFinal'] at early
      exact Nat.lt_irrefl _ early
    refine (sublist_or_sublist ((listed u).2 done) ((listed v).2 done') other).resolve_right fun late => ?_
    exact Nat.lt_asymm early (less same.symm entry' entry late)
  case predecessor =>
    intro v done notSource
    rw [ShortestPaths.isSettled_val] at done
    obtain ⟨u, link, pair⟩ := h.formed.exists_predecessor done notSource
    obtain ⟨done', weight, leads, -, sum⟩ := h.formed.hop v u link
    refine ⟨u, by rw [ShortestPaths.predecessor_val]; exact link, pair, ⟨?_, weight, leads, ?_⟩, ?_⟩
    · rwa [ShortestPaths.isSettled_val]
    · rw [ShortestPaths.distance_val, ShortestPaths.distance_val]
      exact sum.symm
    · rintro other ⟨done, weight, leads, sum⟩
      rw [ShortestPaths.isSettled_val] at done
      rw [ShortestPaths.distance_val, ShortestPaths.distance_val] at sum
      exact ranked.first other v u weight done leads sum link

/-- What was found first counts in a run that ends early, too. -/
theorem Begins.firstFound {cut full : Report α (ShortestPaths n α)} (begins : Begins cut full)
    (source : cut.value.source = full.value.source) (h : full.value.FirstFound steps entries) :
    cut.value.FirstFound steps entries := by
  have done : ∀ {v : Fin n}, cut.value.isSettled v = true → full.value.isSettled v = true :=
    fun settled => (begins.final _ settled).1
  have distance : ∀ {v : Fin n}, cut.value.isSettled v = true → cut.value.distance v = full.value.distance v :=
    fun settled => (begins.final _ settled).2.1
  have same : ∀ {v : Fin n} (place : Nat), cut.value.isSettled v = true →
      (cut.value.EnteredAt entries v place ↔ full.value.EnteredAt entries v place) := by
    intro v place settled
    rw [ShortestPaths.EnteredAt, ShortestPaths.EnteredAt, distance settled]
  have pair : ∀ {u v : Fin n}, cut.value.isSettled v = true →
      ([u, v].Sublist cut.value.order.toList ↔ [u, v].Sublist full.value.order.toList) :=
    fun settled => ⟨fun pair => pair.trans begins.order.sublist,
      sublist_of_prefix begins.order h.nodup ((begins.listed _).2 settled)⟩
  have leads : ∀ {u v : Fin n}, cut.value.isSettled u = true → cut.value.isSettled v = true →
      (cut.value.LeadsTo steps u v ↔ full.value.LeadsTo steps u v) := by
    intro u v settled settled'
    rw [ShortestPaths.LeadsTo, ShortestPaths.LeadsTo, distance settled, distance settled', settled, done settled]
  refine ⟨begins.listed, begins.nodup, ?ascending, ?entered, ?ties, ?predecessor⟩
  case ascending =>
    refine (h.ascending.sublist begins.order.sublist).imp_of_mem fun {u v} among among' ascends => ?_
    rwa [distance ((begins.listed u).1 among), distance ((begins.listed v).1 among')]
  case entered =>
    intro v settled
    simpa only [same _ settled] using h.entered v (done settled)
  case ties =>
    intro u v j k settled settled' level first second
    rw [distance settled, distance settled'] at level
    rw [pair settled']
    exact h.ties u v j k (done settled) (done settled') level ((same j settled).1 first) ((same k settled').1 second)
  case predecessor =>
    intro v settled notSource
    obtain ⟨u, link, before, itsLead, first⟩ := h.predecessor v (done settled) (source ▸ notSource)
    have before := (pair settled).2 before
    have settled' := (begins.listed u).1 (before.subset List.mem_cons_self)
    refine ⟨u, (begins.final v settled).2.2.1.trans link, before, (leads settled' settled).2 itsLead, ?_⟩
    intro other itsLead'
    rw [pair itsLead'.1]
    exact first other ((leads itsLead'.1 settled).1 itsLead')

/-- What a run says about the nodes that it has settled is what a record says about the first nodes. -/
structure Recorded.Begun (r : Recorded n α) (p : ShortestPaths n α) : Prop where
  /-- Nodes are settled in the same order. -/
  order : p.order.toList <+: r.search.order.toList
  /-- The distances are the same. -/
  distance : ∀ v : Fin n, p.isSettled v = true → p.distance v = r.search.tree.costs[v]
  /-- The predecessors are the same. -/
  predecessor : ∀ v : Fin n, p.isSettled v = true → p.predecessor v = r.search.tree.predecessors[v]

variable [GrowingCosts α]

theorem search_ties (nonnegative : ∀ node, ∀ step ∈ steps node, zero ≤ step.2) {r : Recorded n α}
    (reached : r.Reaches steps source) (empty : r.search.tree.frontier.toList = []) (target : Option (Fin n))
    (watch : Watch) :
    let report := search steps source target watch
    report.value.FirstFound steps r.entries ∧ r.Begun report.value
      ∧ (report.completed = true → target = none → report.value.order = r.search.order) := by
  obtain ⟨q, reached', empty', ran⟩ := Search.exists_reaches_all steps source
  have alike := reached'.alike empty' reached empty
  have begins := begins_search steps source target watch
  have found : (search steps source none .always).value.FirstFound steps r.entries := by
    have ended := Search.firstFound_of_ranked (Search.formed_of_reaches reached') (reached'.ranked nonnegative) none
    rw [alike.entries]
    rw [← ran] at ended
    exact ended
  have order : (search steps source none .always).value.order = r.search.order :=
    (congrArg Search.order ran).trans alike.order.symm
  refine ⟨begins.firstFound rfl found, ⟨order ▸ begins.order, fun v done => ?_, fun v done => ?_⟩, ?_⟩
  · rw [(begins.final v done).2.1, ShortestPaths.distance_val, alike.tree.costs, ← ran]
    rfl
  · rw [(begins.final v done).2.2.1, ShortestPaths.predecessor_val, alike.tree.predecessors, ← ran]
    rfl
  · intro completed all
    rcases (Search.run_keeps_all steps target watch (Search.start source)).2 completed with same | ⟨_, asked, -⟩
    · rw [← order]
      exact congrArg Search.order same
    · rw [all] at asked
      cases asked

end Results

/-- When no weight is negative, nodes are settled in the order in which they got their distances, and the predecessor
of a node is the first that could give it its distance. How the frontier arranges its entries makes no difference. -/
theorem compute_ties [GrowingCosts α] {g : Graph α} (loaded : g.Loaded) (nonnegative : g.NonnegativeWeights)
    (source : Fin g.size) (direction : Direction) :
    let steps := g.legs direction
    (∃ r : Recorded g.size α, r.Reaches steps source ∧ r.search.tree.frontier.toList = [])
      ∧ ∀ r : Recorded g.size α, r.Reaches steps source → r.search.tree.frontier.toList = [] →
        ∀ target watch,
          let report := compute g ⟨source, target, direction⟩ watch
          report.value.FirstFound steps r.entries ∧ r.Begun report.value
            ∧ (report.completed = true → target = none → report.value.order = r.search.order) := by
  obtain ⟨storage, settings, origin, loaded⟩ := loaded
  have same := (Loading.stored_of_loadInto loaded).shows.steps_eq_legs direction
  have weights : ∀ node, ∀ step ∈ g.legs direction node, zero ≤ step.2 :=
    fun node step => nonnegative.le_of_mem_legs
  rw [← same] at weights ⊢
  obtain ⟨r, reached, empty, -⟩ := Search.exists_reaches_all (g.steps direction) source
  exact ⟨⟨r, reached, empty⟩, fun r reached empty => search_ties weights reached empty⟩

/-- Doubles with several ways at the same cost, one of them by a step that weighs nothing, and a step that is too heavy
to be taken. -/
def level : Source Float where
  declared := 4
  nodes := [1, 2, 3, 4]
  relationships
    | 1 => [(3, some 0.5), (2, some 0.5), (4, some 1.0)]
    | 2 => [(4, some 0.5), (3, some 0.0)]
    | 3 => [(4, some 0.5)]
    | _ => [(1, some Scalar.unreachable)]

theorem exists_load_level : ∃ g : Graph Float,
    Loading.loadInto .dense { weighted := true, defaultWeight := none } level = .ok g ∧ g.NonnegativeWeights := by
  have heavy : Loading.Heavy { weighted := true, defaultWeight := none } level := by
    intro _ _ label _ entry member
    unfold level at member
    dsimp only at member
    split at member <;> revert entry <;> simp
  have accepted : ∃ g : Graph Float,
      Loading.loadInto .dense { weighted := true, defaultWeight := none } level = .ok g
        ∧ g.ids.labels.toList = level.nodes :=
    Loading.exists_loadInto (by decide) rfl (by decide) (by decide) heavy (by decide)
  obtain ⟨g, loaded, -⟩ := accepted
  refine ⟨g, loaded, ?_⟩
  refine (Loading.stored_of_loadInto loaded).forall_weight (Loading.forall_links (fun label entry member => ?_) g.ids)
  unfold level at member
  dsimp only at member
  split at member <;> revert entry <;> decide

theorem compute_ties_level : ∃ g : Graph Float,
    Loading.loadInto .dense { weighted := true, defaultWeight := none } level = .ok g
      ∧ g.Loaded ∧ g.NonnegativeWeights
      ∧ ∀ source direction target, ∃ entries,
        (compute g ⟨source, target, direction⟩ .always).value.FirstFound (g.legs direction) entries := by
  obtain ⟨g, loaded, nonnegative⟩ := exists_load_level
  have isLoaded : g.Loaded := ⟨_, _, _, loaded⟩
  refine ⟨g, loaded, isLoaded, nonnegative, fun source direction target => ?_⟩
  obtain ⟨⟨r, reached, empty⟩, all⟩ := compute_ties isLoaded nonnegative source direction
  exact ⟨r.entries, (all r reached empty target .always).1⟩

end NetworkAnalysis.ShortestPath
