import Mathlib
import NetworkAnalysis.Proofs.CostOrder
import NetworkAnalysis.Proofs.ShortestPath.Interruption

/-!
# Entries that come and go

A search puts entries into its frontier and takes them out one by one, each time one that no other comes before
(`Heap.Least`). `Recorded.Step` says no more than that: it leaves open how the frontier is arranged, and it keeps a
record of all entries in the order in which they were made. The states of a run are reached by such steps, and what a
run leaves differs from the last of them only by how it ended (`Search.Stops`).
-/

namespace NetworkAnalysis

/-! ## Least entries -/

/-- An entry that no other comes before, and the entries without it, in whatever arrangement. -/
structure Heap.Least {β : Type} (before : β → β → Bool) (h : Heap β) (entry : β) (rest : Heap β) : Prop where
  perm : h.toList.Perm (entry :: rest.toList)
  first : ∀ other ∈ rest.toList, before other entry = false

namespace Heap

variable {β : Type} {before : β → β → Bool} {h rest : Heap β} {entry other : β}

namespace Least

theorem mem (least : h.Least before entry rest) : entry ∈ h.toList :=
  least.perm.mem_iff.2 List.mem_cons_self

theorem mem_of_mem (least : h.Least before entry rest) (stays : other ∈ rest.toList) : other ∈ h.toList :=
  least.perm.mem_iff.2 (List.mem_cons_of_mem _ stays)

theorem eq_or_mem (least : h.Least before entry rest) (there : other ∈ h.toList) :
    other = entry ∨ other ∈ rest.toList :=
  List.mem_cons.1 (least.perm.mem_iff.1 there)

theorem length_eq (least : h.Least before entry rest) : h.toList.length = rest.toList.length + 1 :=
  least.perm.length_eq

/-- Taking the same entry out of the same entries leaves the same ones. -/
theorem perm_rest {h' rest' : Heap β} (least : h.Least before entry rest) (least' : h'.Least before entry rest')
    (same : h'.toList.Perm h.toList) : rest'.toList.Perm rest.toList :=
  ((least'.perm.symm.trans same).trans least.perm).cons_inv

end Least

theorem least_of_pop? (ordered : h.Ordered fun a b => before b a = false)
    (popped : h.pop? before = some (entry, rest)) : h.Least before entry rest :=
  ⟨perm_of_pop? popped, fun _ stays => le_of_pop? ordered popped stays⟩

end Heap

namespace ShortestPath

open Scalar Relation

variable {n : Nat} {α : Type} [Scalar α]

/-! ## The order of entries -/

namespace Candidate

/-- How two entries compare: by cost, then by when they were made. -/
def order : Candidate n α → Candidate n α → Ordering :=
  compareLex (fun a b => Scalar.order a.cost b.cost) (compareOn Candidate.sequence)

theorem order_eq (a b : Candidate n α) :
    a.order b = (Scalar.order a.cost b.cost).then (compare a.sequence b.sequence) := rfl

variable [OrderedCosts α] {a b : Candidate n α}

instance : Std.TransCmp fun a b : Candidate n α => Scalar.order a.cost b.cost where
  eq_swap := Std.OrientedCmp.eq_swap
  isLE_trans := Std.TransCmp.isLE_trans

instance : Std.TransCmp (order : Candidate n α → Candidate n α → Ordering) :=
  inferInstanceAs (Std.TransCmp (compareLex _ _))

omit [OrderedCosts α] in
theorem before_iff : a.before b = true ↔ a.order b = .lt := by
  rw [before, order_eq]
  rcases Scalar.order a.cost b.cost with _ | _ | _
  · simp
  · simp [Nat.compare_eq_lt]
  · simp

theorem not_before_iff : a.before b = false ↔ (b.order a).isLE = true := by
  rw [← Bool.not_eq_true, before_iff, Ordering.isLE_iff_ne_gt, Std.OrientedCmp.gt_iff_lt]

omit [OrderedCosts α] in
theorem atMost_of_order (h : (a.order b).isLE = true) : AtMost a.cost b.cost := by
  rw [order_eq] at h
  rw [AtMost]
  rcases same : Scalar.order a.cost b.cost with _ | _ | _
  · rfl
  · rfl
  · simp [same] at h

omit [OrderedCosts α] in
theorem sequence_eq_of_order (h : a.order b = .eq) : a.sequence = b.sequence := by
  rw [order_eq, Ordering.then_eq_eq] at h
  exact Nat.compare_eq_eq.1 h.2

omit [OrderedCosts α] in
theorem order_of_atMost (cost : AtMost a.cost b.cost) (earlier : a.sequence < b.sequence) : a.order b = .lt := by
  rw [AtMost] at cost
  rw [order_eq]
  rcases same : Scalar.order a.cost b.cost with _ | _ | _
  · rfl
  · exact Nat.compare_eq_lt.2 earlier
  · simp [same] at cost

theorem sequence_lt_of_order (cost : a.cost = b.cost) (h : a.order b = .lt) : a.sequence < b.sequence := by
  have same : Scalar.order b.cost b.cost = .eq := Std.ReflCmp.compare_self
  rw [order_eq, cost, same] at h
  exact Nat.compare_eq_lt.1 h

theorem respects_order :
    Heap.Respects (before : Candidate n α → Candidate n α → Bool) fun a b => b.before a = false where
  trans := by
    intro a b c first second
    rw [not_before_iff] at first second ⊢
    exact Std.TransCmp.isLE_trans first second
  le_of_before first := by
    rw [before_iff] at first
    rw [not_before_iff, first]
    rfl
  le_of_not_before second := second

end Candidate

/-! ## Entries that are made -/

namespace Tree

/-- The entry that trying a step makes, if the step counts. -/
def entered (settled : Table n Bool) (node : Fin n) (cost : α) (t : Tree n α) (step : Fin n × α) :
    List (Candidate n α) :=
  if (t.relax settled node cost step).pushed = t.pushed then [] else [⟨cost + step.2, t.pushed + 1, step.1⟩]

/-- The entries that trying steps one after the other makes. -/
def made (settled : Table n Bool) (node : Fin n) (cost : α) :
    Tree n α → List (Fin n × α) → List (Candidate n α)
  | _, [] => []
  | t, step :: rest => t.entered settled node cost step ++ made settled node cost (t.relax settled node cost step) rest

/-- A step is passed over for one of three reasons, or it makes an entry and a record of the path. -/
theorem relax_spec (settled : Table n Bool) (node : Fin n) (cost : α) (t : Tree n α) (step : Fin n × α) :
    (t.relax settled node cost step = t ∧ t.entered settled node cost step = []
        ∧ (settled[step.1] = true ∨ unreachable ≤ step.2 ∨ ¬cost + step.2 < t.costs[step.1]))
      ∨ (settled[step.1] = false ∧ ¬unreachable ≤ step.2 ∧ cost + step.2 < t.costs[step.1]
        ∧ t.relax settled node cost step = t.reach node step.1 (cost + step.2)
        ∧ t.entered settled node cost step = [⟨cost + step.2, t.pushed + 1, step.1⟩]) := by
  obtain ⟨next, weight⟩ := step
  have passed : ∀ {reason : Prop}, t.relax settled node cost (next, weight) = t → reason →
      t.relax settled node cost (next, weight) = t ∧ t.entered settled node cost (next, weight) = [] ∧ reason := by
    intro reason same holds
    refine ⟨same, if_pos ?_, holds⟩
    rw [same]
  have unfolded : t.relax settled node cost (next, weight)
      = if settled[next] then t else if unreachable ≤ weight then t
        else if cost + weight < t.costs[next] then t.reach node next (cost + weight) else t := rfl
  by_cases done : settled[next] = true
  · exact .inl (passed (unfolded.trans (if_pos done)) (.inl done))
  rw [if_neg done] at unfolded
  by_cases heavy : unreachable ≤ weight
  · exact .inl (passed (unfolded.trans (if_pos heavy)) (.inr (.inl heavy)))
  rw [if_neg heavy] at unfolded
  by_cases cheaper : cost + weight < t.costs[next]
  · rw [if_pos cheaper] at unfolded
    refine .inr ⟨Bool.eq_false_iff.2 done, heavy, cheaper, unfolded, if_neg ?_⟩
    rw [unfolded]
    exact Nat.succ_ne_self _
  · exact .inl (passed (unfolded.trans (if_neg cheaper)) (.inr (.inr cheaper)))

/-- What trying one step after the other preserves holds when all steps from a node have been tried. -/
theorem expand_induction {P : List (Fin n × α) → List (Candidate n α) → Tree n α → Prop}
    {steps : Network n α} {settled : Table n Bool} {node : Fin n} {cost : α} {t : Tree n α}
    (entries : List (Candidate n α)) (start : P [] entries t)
    (next : ∀ {tried entries t} step, step ∈ steps node → P tried entries t →
      P (tried ++ [step]) (entries ++ t.entered settled node cost step) (t.relax settled node cost step)) :
    P (steps node) (entries ++ t.made settled node cost (steps node)) (t.expand steps settled node cost) := by
  -- The induction is on the steps that are still to be tried.
  have walk : ∀ pending tried entries t, tried ++ pending = steps node → P tried entries t →
      P (steps node) (entries ++ t.made settled node cost pending) (pending.foldl (relax settled node cost) t) := by
    intro pending
    induction pending with
    | nil =>
      intro tried entries t all holds
      rw [List.append_nil] at all
      rw [made, List.append_nil, ← all]
      exact holds
    | cons step rest ih =>
      intro tried entries t all holds
      have listed : step ∈ steps node := all ▸ List.mem_append_right _ List.mem_cons_self
      have later := ih (tried ++ [step]) _ _ (by rw [← all, List.append_assoc]; rfl) (next step listed holds)
      rwa [List.append_assoc] at later
  exact walk _ [] _ _ rfl start

end Tree

/-! ## Steps of a search -/

/-- A search with all entries that were made so far, in the order in which they were made. -/
structure Recorded (n : Nat) (α : Type) where
  search : Search n α
  entries : List (Candidate n α)

namespace Recorded

/-- The search before its first step. One entry was made, for the source. -/
def start (source : Fin n) : Recorded n α := ⟨.start source, [⟨Scalar.zero, 0, source⟩]⟩

/-- A search takes an entry out of its frontier that no other comes before, and passes over it or settles its node. -/
inductive Step (steps : Network n α) : Recorded n α → Recorded n α → Prop
  | skip {s : Search n α} {entries : List (Candidate n α)} {candidate : Candidate n α} {rest : Heap (Candidate n α)}
      (least : s.tree.frontier.Least Candidate.before candidate rest) (done : s.settled[candidate.node] = true) :
      Step steps ⟨s, entries⟩ ⟨s.skip rest, entries⟩
  | settle {s : Search n α} {entries : List (Candidate n α)} {candidate : Candidate n α}
      {rest : Heap (Candidate n α)} (least : s.tree.frontier.Least Candidate.before candidate rest)
      (waits : s.settled[candidate.node] = false) :
      Step steps ⟨s, entries⟩
        ⟨(s.settle candidate.node rest).expand steps candidate.node candidate.cost,
          entries ++ (s.settle candidate.node rest).tree.made (s.settle candidate.node rest).settled candidate.node
            candidate.cost (steps candidate.node)⟩

/-- A search reaches a state by taking entries out of the frontier one after the other. -/
def Reaches (steps : Network n α) (source : Fin n) : Recorded n α → Prop :=
  ReflTransGen (Step steps) (start source)

end Recorded

/-- How a run ends: no entry is left, or it is told to stop as it takes one out, or it settles its target. -/
inductive Search.Stops (target : Option (Fin n)) (s : Search n α) : Search n α × Bool → Prop
  | done (empty : s.tree.frontier.toList = []) : Stops target s (s, true)
  | stopped (more : s.tree.frontier.toList ≠ []) : Stops target s ({ s with polls := s.polls + 1 }, false)
  | target {candidate : Candidate n α} {rest : Heap (Candidate n α)}
      (least : s.tree.frontier.Least Candidate.before candidate rest) (waits : s.settled[candidate.node] = false)
      (asked : target = some candidate.node) : Stops target s (s.settle candidate.node rest, true)

/-! ## Runs -/

variable [OrderedCosts α] {steps : Network n α} {source : Fin n} {s : Search n α}

/-- The frontier is arranged so that the first entry is a least one. -/
def Tree.Arranged (t : Tree n α) : Prop :=
  t.frontier.Ordered fun a b => b.before a = false

theorem Tree.Arranged.expand {t : Tree n α} (h : t.Arranged) (settled : Table n Bool) (node : Fin n) (cost : α) :
    (t.expand steps settled node cost).Arranged := by
  refine List.foldlRecOn (steps node) _ h fun t arranged step _ => ?_
  rcases Tree.relax_cases settled node cost t step with same | ⟨-, reached⟩
  · rwa [same]
  · rw [reached]
    exact Heap.ordered_push Candidate.respects_order arranged _

theorem Tree.arranged_start (source : Fin n) : (Tree.start source : Tree n α).Arranged :=
  Heap.ordered_push Candidate.respects_order (h := .empty) trivial _

/-- A run reaches a state by steps and stops there. -/
theorem Search.exists_stops (arranged : s.tree.Arranged) (entries : List (Candidate n α)) (target : Option (Fin n))
    (watch : Watch) :
    ∃ r : Recorded n α, ReflTransGen (Recorded.Step steps) ⟨s, entries⟩ r
      ∧ r.search.Stops target (s.run steps target watch) := by
  fun_induction Search.run steps target watch s generalizing entries with
  | case1 s popped => exact ⟨_, .refl, .done (Heap.toList_of_pop?_eq_none popped)⟩
  | case2 s candidate rest popped stop =>
    have least := Heap.least_of_pop? arranged popped
    exact ⟨_, .refl, .stopped (List.ne_nil_of_mem least.mem)⟩
  | case3 s candidate rest popped more done ih =>
    have least := Heap.least_of_pop? arranged popped
    obtain ⟨r, reached, stops⟩ := ih (Heap.ordered_of_pop? Candidate.respects_order arranged popped) entries
    exact ⟨r, .head (.skip least done) reached, stops⟩
  | case4 s candidate rest popped more waits settled asked =>
    have least := Heap.least_of_pop? arranged popped
    exact ⟨_, .refl, .target least (Bool.eq_false_iff.2 waits) asked⟩
  | case5 s candidate rest popped more waits settled others ih =>
    have least := Heap.least_of_pop? arranged popped
    have kept : (s.settle candidate.node rest).tree.Arranged :=
      Heap.ordered_of_pop? Candidate.respects_order arranged popped
    obtain ⟨r, reached, stops⟩ := ih (by rw [tree_expand]; exact kept.expand _ _ _) _
    exact ⟨r, .head (.settle least (Bool.eq_false_iff.2 waits)) reached, stops⟩

theorem Search.exists_stops_start (steps : Network n α) (source : Fin n) (target : Option (Fin n)) (watch : Watch) :
    ∃ r : Recorded n α, r.Reaches steps source ∧ r.search.Stops target ((start source).run steps target watch) :=
  exists_stops (Tree.arranged_start source) _ target watch

end ShortestPath

end NetworkAnalysis
