import NetworkAnalysis.Proofs.ShortestPath.Branches

/-!
# Any arrangement of the frontier

Which entry is least is settled by costs and by the order in which entries were made, so how a frontier is arranged
makes no difference: searches whose frontiers hold the same entries take the same steps (`Recorded.Alike.step`), and all
searches that go on until no entry is left end alike.
-/

namespace NetworkAnalysis.ShortestPath

open Scalar Relation

variable {n : Nat} {α : Type} [Scalar α]

/-- Two trees are the same but for the arrangement of their frontiers. -/
structure Tree.Alike (t t' : Tree n α) : Prop where
  costs : t'.costs = t.costs
  predecessors : t'.predecessors = t.predecessors
  pushed : t'.pushed = t.pushed
  frontier : t'.frontier.toList.Perm t.frontier.toList

namespace Tree.Alike

variable {t t' : Tree n α} {settled : Table n Bool} {node : Fin n} {cost : α}

theorem reach (h : t.Alike t') (node next : Fin n) (cost : α) :
    (t.reach node next cost).Alike (t'.reach node next cost) where
  costs := by rw [Tree.reach, Tree.reach, h.costs]
  predecessors := by rw [Tree.reach, Tree.reach, h.predecessors]
  pushed := by rw [Tree.reach, Tree.reach, h.pushed]
  frontier := by
    rw [Tree.reach, Tree.reach, h.pushed]
    exact (Heap.perm_push _ _).trans ((h.frontier.cons _).trans (Heap.perm_push _ _).symm)

theorem relax (h : t.Alike t') (step : Fin n × α) :
    (t.relax settled node cost step).Alike (t'.relax settled node cost step) := by
  obtain ⟨next, weight⟩ := step
  unfold Tree.relax
  dsimp only
  rw [h.costs]
  split
  · exact h
  split
  · exact h
  split
  · exact h.reach node next _
  · exact h

theorem made (h : t.Alike t') (pending : List (Fin n × α)) :
    t'.made settled node cost pending = t.made settled node cost pending := by
  induction pending generalizing t t' with
  | nil => rfl
  | cons step rest ih =>
    have later : (t.relax settled node cost step).Alike (t'.relax settled node cost step) := h.relax step
    rw [Tree.made, Tree.made, ih later, entered, entered, later.pushed, h.pushed]

theorem expand (h : t.Alike t') (steps : Network n α) :
    (t.expand steps settled node cost).Alike (t'.expand steps settled node cost) := by
  unfold Tree.expand
  induction steps node generalizing t t' with
  | nil => exact h
  | cons step rest ih => exact ih (h.relax step)

end Tree.Alike

/-- Two searches with records are the same but for the arrangement of their frontiers, and for what they have announced
and asked. -/
structure Recorded.Alike (r r' : Recorded n α) : Prop where
  tree : r.search.tree.Alike r'.search.tree
  settled : r'.search.settled = r.search.settled
  order : r'.search.order = r.search.order
  entries : r'.entries = r.entries

namespace Recorded

omit [Scalar α] in
theorem Alike.refl (r : Recorded n α) : r.Alike r :=
  ⟨⟨rfl, rfl, rfl, .rfl⟩, rfl, rfl, rfl⟩

variable [OrderedCosts α] {steps : Network n α} {source : Fin n} {r r' q q' : Recorded n α}

/-- A step keeps the form of a search. -/
theorem Step.formed (step : Step steps r q) (h : r.search.Formed steps source r.entries) :
    q.search.Formed steps source q.entries := by
  cases step with
  | skip least done => exact h.skip least done
  | settle least waits => exact h.expand least waits

/-- Only one entry is least. -/
theorem least_unique {s : Search n α} {entries : List (Candidate n α)} (h : s.Formed steps source entries)
    {frontier : Heap (Candidate n α)} (same : frontier.toList.Perm s.tree.frontier.toList) {a b : Candidate n α}
    {rest rest' : Heap (Candidate n α)} (first : s.tree.frontier.Least Candidate.before a rest)
    (second : frontier.Least Candidate.before b rest') : a = b := by
  have there : b ∈ s.tree.frontier.toList := same.mem_iff.1 second.mem
  rcases first.eq_or_mem there with rfl | stays
  · rfl
  rcases second.eq_or_mem (same.mem_iff.2 first.mem) with rfl | stays'
  · rfl
  have low := Candidate.not_before_iff.1 (first.first b stays)
  have high := Candidate.not_before_iff.1 (second.first a stays')
  exact h.entered.eq_of_sequence (h.entered.inside a first.mem) (h.entered.inside b there)
    (Candidate.sequence_eq_of_order (Std.OrientedCmp.isLE_antisymm low high))

/-- Searches that are alike take the same steps. -/
theorem Alike.step (alike : r.Alike r') (h : r.search.Formed steps source r.entries) (step : Step steps r q)
    (step' : Step steps r' q') : q.Alike q' := by
  obtain ⟨tree, settled, order, entries⟩ := alike
  -- Both take out the same entry, and its node is settled in both or in neither.
  cases step with
  | @skip s made candidate rest least done =>
    cases step' with
    | skip least' done' =>
      obtain rfl := least_unique h tree.frontier least least'
      exact ⟨{ tree with frontier := least.perm_rest least' tree.frontier }, settled, order, entries⟩
    | settle least' waits' =>
      obtain rfl := least_unique h tree.frontier least least'
      rw [settled, done] at waits'
      cases waits'
  | @settle s made candidate rest least waits =>
    cases step' with
    | skip least' done' =>
      obtain rfl := least_unique h tree.frontier least least'
      rw [settled, waits] at done'
      cases done'
    | @settle s' made' candidate' rest' least' waits' =>
      obtain rfl := least_unique h tree.frontier least least'
      have opened : (s.settle candidate.node rest).tree.Alike (s'.settle candidate.node rest').tree :=
        { tree with frontier := least.perm_rest least' tree.frontier }
      have settled' : (s'.settle candidate.node rest').settled = (s.settle candidate.node rest).settled :=
        congrArg (·.set candidate.node true) settled
      constructor
      case tree =>
        dsimp only
        rw [Search.tree_expand, Search.tree_expand, settled']
        exact opened.expand steps
      case settled =>
        dsimp only
        rw [Search.settled_expand, Search.settled_expand, settled']
      case order =>
        dsimp only
        rw [Search.order_expand, Search.order_expand]
        exact congrArg (·.push candidate.node) order
      case entries =>
        dsimp only at entries ⊢
        rw [entries, settled', opened.made]

/-- Searches that are alike end alike. -/
theorem Alike.ended (alike : r.Alike r') (h : r.search.Formed steps source r.entries)
    (run : ReflTransGen (Step steps) r q) (empty : q.search.tree.frontier.toList = [])
    (run' : ReflTransGen (Step steps) r' q') (empty' : q'.search.tree.frontier.toList = []) : q.Alike q' := by
  have more : ∀ {r q : Recorded n α}, Step steps r q → r.search.tree.frontier.toList ≠ [] := by
    intro r q step
    cases step with
    | skip least done => exact List.ne_nil_of_mem least.mem
    | settle least waits => exact List.ne_nil_of_mem least.mem
  -- A search with an empty frontier takes no step, so neither run goes on when the other one is over.
  induction run using ReflTransGen.head_induction_on generalizing r' with
  | refl =>
    rcases run'.cases_head with rfl | ⟨next, step', -⟩
    · exact alike
    · exact absurd (List.perm_nil.1 (empty ▸ alike.tree.frontier)) (more step')
  | head step run ih =>
    rcases run'.cases_head with rfl | ⟨next', step', run'⟩
    · exact absurd (List.nil_perm.1 (empty' ▸ alike.tree.frontier)) (more step)
    · exact ih (alike.step h step step') (step.formed h) run'

/-- However their frontiers are arranged, all searches that go on until no entry is left end alike. -/
theorem Reaches.alike (reached : r.Reaches steps source) (empty : r.search.tree.frontier.toList = [])
    (reached' : r'.Reaches steps source) (empty' : r'.search.tree.frontier.toList = []) : r.Alike r' :=
  (Alike.refl (start source)).ended (Search.formed_start steps source) reached empty reached' empty'

end Recorded

/-- The run of a search for all nodes goes on until no entry is left. -/
theorem Search.exists_reaches_all [OrderedCosts α] (steps : Network n α) (source : Fin n) :
    ∃ r : Recorded n α, r.Reaches steps source ∧ r.search.tree.frontier.toList = []
      ∧ ((start source).run steps none .always).1 = r.search := by
  obtain ⟨r, reached, stops⟩ := exists_stops_start steps source none .always
  have completed := (watched_run steps none (start source)).completed_always
  generalize ((start source).run steps none .always) = result at stops completed ⊢
  cases stops with
  | done empty => exact ⟨r, reached, empty, rfl⟩
  | stopped more => cases completed
  | target least waits asked => cases asked

end NetworkAnalysis.ShortestPath
