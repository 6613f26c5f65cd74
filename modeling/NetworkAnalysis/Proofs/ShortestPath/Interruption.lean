import NetworkAnalysis.Proofs.ShortestPath.Optimality
import NetworkAnalysis.Proofs.Watched

/-!
# Searches that end early

A search that is stopped, or that ends at its target, has gone the first part of the way of the search for all nodes.
Nothing ever changes about a settled node (`Search.Keeps`), and the predecessor of any node is settled
(`Search.Traced`), so that distances, predecessors and paths of the nodes settled so far are final. No law of
arithmetic is needed for this, and weights may be anything.
-/

namespace NetworkAnalysis.ShortestPath

variable {n : Nat} {α : Type} [Scalar α]

/-! ## Settled nodes stay as they are -/

namespace Tree

/-- The entries of settled nodes are the same in two trees. -/
structure Keeps (settled : Table n Bool) (t t' : Tree n α) : Prop where
  costs : ∀ v : Fin n, settled[v] = true → t'.costs[v] = t.costs[v]
  predecessors : ∀ v : Fin n, settled[v] = true → t'.predecessors[v] = t.predecessors[v]

variable {settled : Table n Bool} {t : Tree n α}

/-- A step is passed over, or it leads to a node that waits. -/
theorem relax_cases (settled : Table n Bool) (node : Fin n) (cost : α) (t : Tree n α) (step : Fin n × α) :
    t.relax settled node cost step = t
      ∨ settled[step.1] = false ∧ t.relax settled node cost step = t.reach node step.1 (cost + step.2) := by
  obtain ⟨next, weight⟩ := step
  unfold relax
  dsimp only
  by_cases done : settled[next] = true
  · exact .inl (if_pos done)
  rw [if_neg done]
  by_cases heavy : Scalar.unreachable ≤ weight
  · exact .inl (if_pos heavy)
  rw [if_neg heavy]
  by_cases cheaper : cost + weight < t.costs[next]
  · exact .inr ⟨Bool.eq_false_iff.2 done, if_pos cheaper⟩
  · exact .inl (if_neg cheaper)

theorem keeps_relax (settled : Table n Bool) (node : Fin n) (cost : α) (t : Tree n α) (step : Fin n × α) :
    t.Keeps settled (t.relax settled node cost step) := by
  rcases relax_cases settled node cost t step with same | ⟨waits, reached⟩
  · rw [same]
    exact ⟨fun _ _ => rfl, fun _ _ => rfl⟩
  · rw [reached]
    exact ⟨fun _ done => costs_reach_of_settled waits done _,
      fun _ done => predecessors_reach_of_ne _ _ _ (ne_of_settled waits done)⟩

theorem keeps_expand (steps : Network n α) (settled : Table n Bool) (node : Fin n) (cost : α) (t : Tree n α) :
    t.Keeps settled (t.expand steps settled node cost) := by
  unfold expand
  induction steps node generalizing t with
  | nil => exact ⟨fun _ _ => rfl, fun _ _ => rfl⟩
  | cons step rest ih =>
    have first := keeps_relax settled node cost t step
    have later := ih (t.relax settled node cost step)
    exact ⟨fun v done => (later.costs v done).trans (first.costs v done),
      fun v done => (later.predecessors v done).trans (first.predecessors v done)⟩

/-- Every predecessor is settled. -/
def Rooted (settled : Table n Bool) (t : Tree n α) : Prop :=
  ∀ v previous : Fin n, t.predecessors[v] = some previous → settled[previous] = true

theorem Rooted.relax {node : Fin n} (h : t.Rooted settled) (done : settled[node] = true) (cost : α)
    (step : Fin n × α) : (t.relax settled node cost step).Rooted settled := by
  rcases relax_cases settled node cost t step with same | ⟨-, reached⟩
  · rwa [same]
  · rw [reached]
    intro v previous link
    rw [reach, Table.getElem_set] at link
    split at link
    · exact Option.some.inj link ▸ done
    · exact h v previous link

theorem Rooted.expand {node : Fin n} (h : t.Rooted settled) (done : settled[node] = true)
    (steps : Network n α) (cost : α) : (t.expand steps settled node cost).Rooted settled :=
  List.foldlRecOn (steps node) _ h fun _ rooted step _ => rooted.relax done cost step

end Tree

namespace Search

/-- What one search has settled, another one has settled in the same way, and in the same order before all else. -/
structure Keeps (s t : Search n α) : Prop where
  settled : ∀ v : Fin n, s.settled[v] = true → t.settled[v] = true
  tree : s.tree.Keeps s.settled t.tree
  order : s.order.toList <+: t.order.toList

namespace Keeps

omit [Scalar α] in
theorem of_same {s t : Search n α} (settled : t.settled = s.settled) (costs : t.tree.costs = s.tree.costs)
    (predecessors : t.tree.predecessors = s.tree.predecessors) (order : t.order = s.order) : s.Keeps t := by
  refine ⟨fun v done => ?_, ⟨fun v _ => ?_, fun v _ => ?_⟩, ?_⟩
  · rwa [settled]
  · rw [costs]
  · rw [predecessors]
  · exact order ▸ List.prefix_rfl

omit [Scalar α] in
theorem trans {s t u : Search n α} (first : s.Keeps t) (second : t.Keeps u) : s.Keeps u where
  settled v done := second.settled v (first.settled v done)
  tree :=
    ⟨fun v done => (second.tree.costs v (first.settled v done)).trans (first.tree.costs v done),
      fun v done => (second.tree.predecessors v (first.settled v done)).trans (first.tree.predecessors v done)⟩
  order := first.order.trans second.order

end Keeps

variable {steps : Network n α} {s : Search n α} {candidate : Candidate n α} {rest : Heap (Candidate n α)}

omit [Scalar α] in
theorem keeps_skip (s : Search n α) (rest : Heap (Candidate n α)) : s.Keeps (s.skip rest) :=
  .of_same rfl rfl rfl rfl

omit [Scalar α] in
theorem keeps_settle (s : Search n α) (node : Fin n) (rest : Heap (Candidate n α)) :
    s.Keeps (s.settle node rest) where
  settled v done := by
    rw [settle, Table.getElem_set, done, ite_self]
  tree := ⟨fun _ _ => rfl, fun _ _ => rfl⟩
  order := by
    rw [order_settle]
    exact List.prefix_append _ _

theorem keeps_expand (steps : Network n α) (s : Search n α) (node : Fin n) (cost : α) :
    s.Keeps (s.expand steps node cost) := by
  have kept : s.Keeps { s with tree := s.tree.expand steps s.settled node cost } :=
    ⟨fun _ done => done, Tree.keeps_expand steps s.settled node cost s.tree, List.prefix_rfl⟩
  unfold expand announce
  split
  · exact kept.trans (.of_same rfl rfl rfl rfl)
  · exact kept

theorem polls_expand (steps : Network n α) (s : Search n α) (node : Fin n) (cost : α) :
    (s.expand steps node cost).polls = s.polls := by
  unfold expand announce
  split <;> rfl

theorem order_expand (steps : Network n α) (s : Search n α) (node : Fin n) (cost : α) :
    (s.expand steps node cost).order = s.order := by
  unfold expand announce
  split <;> rfl

theorem tree_expand (steps : Network n α) (s : Search n α) (node : Fin n) (cost : α) :
    (s.expand steps node cost).tree = s.tree.expand steps s.settled node cost := by
  unfold expand announce
  split <;> rfl

/-! ## One step of a run -/

theorem run_of_pop?_eq_none (popped : s.tree.frontier.pop? Candidate.before = none)
    (target : Option (Fin n)) (watch : Watch) : s.run steps target watch = (s, true) := by
  rw [Search.run]
  split
  · rfl
  · next found =>
    rw [popped] at found
    cases found

/-- What a run does with the first entry of the frontier. -/
theorem run_of_pop? (popped : s.tree.frontier.pop? Candidate.before = some (candidate, rest))
    (target : Option (Fin n)) (watch : Watch) :
    s.run steps target watch
      = if !watch s.polls then ({ s with polls := s.polls + 1 }, false)
        else if s.settled[candidate.node] = true then (s.skip rest).run steps target watch
        else if target = some candidate.node then (s.settle candidate.node rest, true)
        else ((s.settle candidate.node rest).expand steps candidate.node candidate.cost).run steps target watch := by
  rw [Search.run]
  split
  · next found =>
    rw [popped] at found
    cases found
  · next candidate' rest' found =>
    obtain ⟨rfl, rfl⟩ := Prod.mk.inj (Option.some.inj (found.symm.trans popped))
    split
    · rfl
    · split <;> rfl

/-- A run asks for every entry that it takes out of the frontier, until it ends. -/
theorem watched_run (steps : Network n α) (target : Option (Fin n)) (s : Search n α) :
    Watched (fun result => result.1.polls) Prod.snd s.polls fun watch => s.run steps target watch := by
  fun_induction Search.run steps target .always s with
  | case1 s popped =>
    simp only [run_of_pop?_eq_none popped]
    exact .ends rfl rfl
  | case2 s candidate rest popped stop => cases stop
  | case3 s candidate rest popped more done ih =>
    simp only [run_of_pop? popped, if_pos done]
    exact .asks rfl rfl ih
  | case4 s candidate rest popped more waits settled asked =>
    simp only [run_of_pop? popped, if_neg waits, if_pos asked]
    exact .asks rfl rfl (.ends rfl rfl)
  | case5 s candidate rest popped more waits settled others ih =>
    simp only [run_of_pop? popped, if_neg waits, if_neg others]
    refine .asks rfl rfl ?_
    rwa [polls_expand] at ih

/-! ## Runs that end early -/

/-- However a search ends, what is settled stays as it is. -/
theorem keeps_run (steps : Network n α) (target : Option (Fin n)) (watch : Watch) (s : Search n α) :
    s.Keeps (s.run steps target watch).1 := by
  fun_induction Search.run steps target watch s with
  | case1 s popped => exact .of_same rfl rfl rfl rfl
  | case2 s candidate rest popped stop => exact .of_same rfl rfl rfl rfl
  | case3 s candidate rest popped more done ih => exact (keeps_skip s rest).trans ih
  | case4 s candidate rest popped more waits settled asked => exact keeps_settle s _ rest
  | case5 s candidate rest popped more waits settled others ih =>
    exact (keeps_settle s candidate.node rest).trans ((keeps_expand steps _ _ _).trans ih)

/-- A search that is stopped or ends at its target has settled nodes as the search for all nodes does, and that one
goes on from there. If it was not stopped, it ends where the search for all nodes ends, or at its target. -/
theorem run_keeps_all (steps : Network n α) (target : Option (Fin n)) (watch : Watch) (s : Search n α) :
    (s.run steps target watch).1.Keeps (s.run steps none .always).1
      ∧ ((s.run steps target watch).2 = true →
        (s.run steps target watch).1 = (s.run steps none .always).1
          ∨ ∃ t : Fin n, target = some t ∧ (s.run steps target watch).1.settled[t] = true) := by
  fun_induction Search.run steps target watch s with
  | case1 s popped =>
    rw [run_of_pop?_eq_none popped]
    exact ⟨.of_same rfl rfl rfl rfl, fun _ => .inl rfl⟩
  -- A candidate that is discarded by the stop is not yet settled.
  | case2 s candidate rest popped stop =>
    have same : Keeps { s with polls := s.polls + 1 } s := .of_same rfl rfl rfl rfl
    exact ⟨same.trans (keeps_run steps none .always s), fun completed => absurd completed Bool.false_ne_true⟩
  | case3 s candidate rest popped more done ih =>
    rwa [run_of_pop? popped none, if_neg (by simp [Watch.always]), if_pos done]
  | case4 s candidate rest popped more waits settled asked =>
    rw [run_of_pop? popped none, if_neg (by simp [Watch.always]), if_neg waits,
      if_neg (Option.some_ne_none _).symm]
    refine ⟨(keeps_expand steps _ _ _).trans (keeps_run steps none .always _), fun _ => .inr ?_⟩
    exact ⟨candidate.node, asked, Table.getElem_set_self _ _ _⟩
  | case5 s candidate rest popped more waits settled others ih =>
    rwa [run_of_pop? popped none, if_neg (by simp [Watch.always]), if_neg waits,
      if_neg (Option.some_ne_none _).symm]

/-! ## What is listed -/

/-- The nodes in order are the settled ones, each of them once, and every predecessor is among them. -/
structure Traced (s : Search n α) : Prop where
  listed : ∀ v : Fin n, v ∈ s.order.toList ↔ s.settled[v] = true
  nodup : s.order.toList.Nodup
  rooted : s.tree.Rooted s.settled

theorem traced_start (source : Fin n) : (start source : Search n α).Traced := by
  refine ⟨fun v => ?_, List.nodup_nil, fun v previous link => ?_⟩
  · simp [start]
  · simp [start, Tree.start] at link

omit [Scalar α] in
theorem Traced.settle (h : s.Traced) {node : Fin n} (waits : s.settled[node] = false)
    (rest : Heap (Candidate n α)) : (s.settle node rest).Traced := by
  have done := settled_settle s node rest
  have order := order_settle s node rest
  constructor
  case listed =>
    intro v
    rw [order, done, List.mem_append, List.mem_singleton, h.listed, or_comm]
  case nodup =>
    rw [order]
    refine List.nodup_append.2 ⟨h.nodup, List.nodup_singleton _, ?_⟩
    rintro u before v last rfl
    rw [List.mem_singleton.1 last, h.listed, waits] at before
    cases before
  case rooted =>
    intro v previous link
    exact (done previous).2 (.inr (h.rooted v previous link))

theorem Traced.expand (h : s.Traced) {node : Fin n} (done : s.settled[node] = true) (steps : Network n α)
    (cost : α) : (s.expand steps node cost).Traced := by
  constructor
  case listed =>
    rw [order_expand, settled_expand]
    exact h.listed
  case nodup =>
    rw [order_expand]
    exact h.nodup
  case rooted =>
    rw [tree_expand, settled_expand]
    exact h.rooted.expand done steps cost

theorem Traced.run (h : s.Traced) (steps : Network n α) (target : Option (Fin n)) (watch : Watch) :
    (s.run steps target watch).1.Traced := by
  fun_induction Search.run steps target watch s with
  | case1 s popped => exact h
  | case2 s candidate rest popped stop => exact { h with }
  | case3 s candidate rest popped more done ih => exact ih { h with }
  | case4 s candidate rest popped more waits settled asked => exact h.settle (Bool.eq_false_iff.2 waits) rest
  | case5 s candidate rest popped more waits settled others ih =>
    exact ih ((h.settle (Bool.eq_false_iff.2 waits) rest).expand (Table.getElem_set_self _ _ _) steps _)

end Search

/-! ## Results -/

omit [Scalar α] in
/-- The way back from a settled node is the same where the predecessors of settled nodes are. -/
theorem ShortestPaths.chain_congr {settled : Table n Bool} {t t' : Tree n α} (kept : t.Keeps settled t')
    (rooted : t.Rooted settled) (bound : Nat) {v : Fin n} (done : settled[v] = true) (after : List (Fin n)) :
    chain t'.predecessors bound v after = chain t.predecessors bound v after := by
  induction bound generalizing v after with
  | zero => rfl
  | succ bound ih =>
    rw [chain, chain, kept.predecessors v done]
    split
    · rfl
    · next previous link => exact ih (rooted v previous link) _

/-- The report of a search, as far as it goes, is the beginning of the report of the search for all nodes. -/
structure Begins (cut full : Report α (ShortestPaths n α)) : Prop where
  /-- Nothing about a settled node is going to change. -/
  final : ∀ v : Fin n, cut.value.isSettled v = true →
    full.value.isSettled v = true ∧ cut.value.distance v = full.value.distance v
      ∧ cut.value.predecessor v = full.value.predecessor v ∧ cut.value.pathTo v = full.value.pathTo v
  /-- The settled nodes come first in the order in which all nodes are settled. -/
  order : cut.value.order.toList <+: full.value.order.toList
  /-- The nodes in order are the settled ones. -/
  listed : ∀ v : Fin n, v ∈ cut.value.order.toList ↔ cut.value.isSettled v = true
  /-- Every node is settled once. -/
  nodup : cut.value.order.toList.Nodup
  /-- A run that was not stopped has settled its target if there is any way to do so. -/
  target : cut.completed = true → ∀ t : Fin n, cut.value.target = some t →
    cut.value.isSettled t = full.value.isSettled t

omit [Scalar α] in
theorem ShortestPaths.predecessor_val (p : ShortestPaths n α) (v : Fin n) :
    p.predecessor v = p.predecessors[v] := by
  simp [predecessor, Table.get?]

/-- Whatever the target and the watch are, a search begins like the search for all nodes that is never stopped. -/
theorem begins_search (steps : Network n α) (source : Fin n) (target : Option (Fin n)) (watch : Watch) :
    Begins (search steps source target watch) (search steps source none .always) := by
  have traced := (Search.traced_start source).run steps target watch
  obtain ⟨kept, ended⟩ := Search.run_keeps_all steps target watch (Search.start source)
  constructor
  case final =>
    intro v done
    rw [ShortestPaths.isSettled_val] at done ⊢
    have done' : (search steps source none .always).value.settled[v] = true := kept.settled v done
    refine ⟨done', ?_, ?_, ?_⟩
    · rw [ShortestPaths.distance_val, ShortestPaths.distance_val]
      exact (kept.tree.costs v done).symm
    · rw [ShortestPaths.predecessor_val, ShortestPaths.predecessor_val]
      exact (kept.tree.predecessors v done).symm
    · rw [ShortestPaths.pathTo_val, ShortestPaths.pathTo_val, ShortestPaths.pathToNode,
        ShortestPaths.pathToNode, if_pos done, if_pos done']
      exact congrArg₂ Path.mk (ShortestPaths.chain_congr kept.tree traced.rooted n done []).symm
        (kept.tree.costs v done).symm
  case order => exact kept.order
  case listed =>
    intro v
    rw [ShortestPaths.isSettled_val]
    exact traced.listed v
  case nodup => exact traced.nodup
  case target =>
    intro completed t asked
    rw [ShortestPaths.isSettled_val, ShortestPaths.isSettled_val]
    rcases ended completed with same | ⟨t', asked', done⟩
    · exact congrArg (fun s : Search n α => s.settled[t]) same
    · obtain rfl : t' = t := Option.some.inj (asked'.symm.trans asked)
      exact done.trans (kept.settled t' done).symm

/-- A search that is stopped, or that has a target, has gone the beginning of the way of the search for all nodes. A
budget stops it with the next question, or does not matter. -/
theorem compute_interrupted (g : Graph α) (source : Fin g.size) (direction : Direction)
    (target : Option (Fin g.size)) :
    let full := compute g ⟨source, none, direction⟩ .always
    let free := compute g ⟨source, target, direction⟩ .always
    (∀ watch, Begins (compute g ⟨source, target, direction⟩ watch) full)
      ∧ free.completed = true
      ∧ ∀ budget : Nat,
        let cut := compute g ⟨source, target, direction⟩ (.budget budget)
        (free.polls ≤ budget → cut = free)
          ∧ (budget < free.polls → cut.polls = budget + 1 ∧ cut.completed = false) := by
  have watched := Search.watched_run (g.steps direction) target (Search.start source)
  refine ⟨begins_search _ source target, watched.completed_always, fun budget => ?_⟩
  constructor
  · intro enough
    have same := watched.eq_of_enough (Nat.zero_le budget) enough
    unfold compute search
    rw [same]
  · exact watched.cut_of_short (Nat.zero_le budget)

end NetworkAnalysis.ShortestPath
