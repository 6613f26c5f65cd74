import Mathlib
import NetworkAnalysis.Community.Move

/-!
# The table that the nodes share

The table of weights is used for one node after the other and cleared only where it lists communities. That is
enough: whatever nodes came before, the entries of all other communities are zero (`Clean`), so that the table
is empty again after the clearing and the best community of a node does not depend on the nodes before it.
-/

namespace NetworkAnalysis.Community

variable {n : Nat} {α : Type} [Scalar α]

namespace Scratch

/-! ## One weight more -/

omit [Scalar α] in
@[simp]
theorem weight_touch (s : Scratch n α) (c : Fin n) : (s.touch c).weight = s.weight := by
  unfold touch
  split <;> rfl

theorem weight_add (s : Scratch n α) (c d : Fin n) (weight : α) :
    (s.add c weight).weight[d] = if c = d then s.weight[c] + weight else s.weight[d] := by
  show ((s.touch c).weight.set c ((s.touch c).weight[c] + weight))[d] = _
  rw [weight_touch]
  exact Table.getElem_set _ _ _ _

omit [Scalar α] in
theorem seen_touch (s : Scratch n α) (c d : Fin n) :
    (s.touch c).seen[d] = if c = d then true else s.seen[d] := by
  unfold touch
  split
  · next seen =>
    by_cases same : c = d
    · subst same
      rw [if_pos rfl]
      exact seen
    · rw [if_neg same]
  · exact Table.getElem_set _ _ _ _

theorem seen_add (s : Scratch n α) (c d : Fin n) (weight : α) :
    (s.add c weight).seen[d] = if c = d then true else s.seen[d] :=
  seen_touch s c d

omit [Scalar α] in
theorem mem_touched_touch {s : Scratch n α} {c d : Fin n} (seen : s.seen[c] = true ↔ c ∈ s.touched) :
    d ∈ (s.touch c).touched ↔ d = c ∨ d ∈ s.touched := by
  unfold touch
  split
  · next marked =>
    constructor
    · exact .inr
    · rintro (rfl | member)
      · exact seen.1 marked
      · exact member
  · simp [or_comm]

theorem mem_touched_add {s : Scratch n α} {c d : Fin n} (weight : α)
    (seen : s.seen[c] = true ↔ c ∈ s.touched) :
    d ∈ (s.add c weight).touched ↔ d = c ∨ d ∈ s.touched :=
  mem_touched_touch seen

/-! ## Clean tables -/

/-- The marks say which communities are listed, and the other ones have no weight. -/
structure Clean (s : Scratch n α) : Prop where
  seen : ∀ c : Fin n, s.seen[c] = true ↔ c ∈ s.touched
  weight : ∀ c : Fin n, c ∉ s.touched → s.weight[c] = Scalar.zero

theorem clean_fresh : (fresh : Scratch n α).Clean := by
  constructor
  case seen =>
    intro c
    simp [fresh]
  case weight =>
    intro c _
    simp [fresh]

theorem Clean.add {s : Scratch n α} (h : s.Clean) (c : Fin n) (weight : α) :
    (s.add c weight).Clean := by
  have listed := fun d => mem_touched_add (d := d) weight (h.seen c)
  constructor
  case seen =>
    intro d
    rw [seen_add, listed d]
    by_cases same : c = d
    · simp [same]
    · rw [if_neg same, h.seen d]
      exact ⟨.inr, fun either => either.resolve_left (Ne.symm same)⟩
  case weight =>
    intro d unlisted
    rw [listed d, not_or] at unlisted
    rw [weight_add, if_neg (Ne.symm unlisted.1)]
    exact h.weight d unlisted.2

theorem foldl_clearAt (communities : List (Fin n)) (s : Scratch n α) (d : Fin n) :
    (communities.foldl clearAt s).weight[d]
        = (if d ∈ communities then Scalar.zero else s.weight[d])
      ∧ (communities.foldl clearAt s).seen[d] = if d ∈ communities then false else s.seen[d] := by
  induction communities generalizing s with
  | nil => simp
  | cons c rest ih =>
    obtain ⟨weight, seen⟩ := ih (s.clearAt c)
    rw [List.foldl_cons, weight, seen]
    by_cases later : d ∈ rest
    · simp [later]
    · by_cases same : d = c
      · simp [same, clearAt]
      · simp [later, same, clearAt, Table.getElem_set_of_ne _ _ (Ne.symm same)]

/-- Clearing the listed communities empties a clean table. -/
theorem Clean.clear {s : Scratch n α} (h : s.Clean) : s.clear = fresh := by
  have cleared := foldl_clearAt s.touched.toList { s with touched := #[] }
  rw [Array.foldl_toList] at cleared
  have unlisted : ∀ {d : Fin n}, d ∉ s.touched.toList → d ∉ s.touched :=
    fun other member => other (Array.mem_toList_iff.2 member)
  have weight := Table.eq_replicate (fun d => (cleared d).1) fun d other => h.weight d (unlisted other)
  have seen := Table.eq_replicate (fun d => (cleared d).2) fun d other => by
    rw [← Bool.not_eq_true, h.seen d]
    exact unlisted other
  unfold Scratch.clear fresh
  dsimp only
  rw [weight, seen]

/-- A clean table collects the weights of a node as an empty one does. -/
theorem Clean.collect_eq {s : Scratch n α} (h : s.Clean) (community : Table n (Fin n))
    (row : List (Fin n × α)) : s.collect community row = fresh.collect community row := by
  rw [collect, collect, h.clear, clean_fresh.clear]

theorem clean_collect (community : Table n (Fin n)) (row : List (Fin n × α)) :
    (fresh.collect community row).Clean := by
  rw [collect, clean_fresh.clear]
  exact List.foldlRecOn row _ clean_fresh fun _ clean entry _ => clean.add community[entry.1] entry.2

/-- The communities of the entries of a row are listed. -/
theorem mem_touched_collect (community : Table n (Fin n)) (row : List (Fin n × α)) (c : Fin n) :
    c ∈ (fresh.collect community row).touched ↔ ∃ entry ∈ row, community[entry.1] = c := by
  have listed : ∀ (row : List (Fin n × α)) {s : Scratch n α}, s.Clean →
      (c ∈ (row.foldl (fun s entry => s.add community[entry.1] entry.2) s).touched
        ↔ c ∈ s.touched ∨ ∃ entry ∈ row, community[entry.1] = c) := by
    intro row
    induction row with
    | nil => simp
    | cons entry rest ih =>
      intro s clean
      rw [List.foldl_cons, ih (clean.add _ _), mem_touched_add _ (clean.seen _)]
      simp only [List.mem_cons, exists_eq_or_imp, eq_comm (a := c), or_assoc, or_left_comm]
  rw [collect, clean_fresh.clear, listed row clean_fresh]
  simp [fresh]

/-- The table is clean after every node. -/
theorem Clean.best {s : Scratch n α} (h : s.Clean) (level : Level n α) (state : MoveState n α)
    (node : Fin n) : (s.best level state node).2.Clean := by
  unfold Scratch.best
  split
  · exact h
  · dsimp only
    rw [h.collect_eq]
    exact clean_collect _ _

end Scratch

/-- The best community for a node, found with an empty table. -/
def bestCommunity (level : Level n α) (state : MoveState n α)
    (node : Fin n) : Fin n :=
  (Scratch.fresh.best level state node).1

theorem bestCommunity_of_empty {level : Level n α} (empty : level.total ≤ Scalar.zero) (state : MoveState n α)
    (node : Fin n) : bestCommunity level state node = state.community[node] := by
  rw [bestCommunity, Scratch.best, if_pos empty]

theorem bestCommunity_eq_choose {level : Level n α} (heavy : ¬level.total ≤ Scalar.zero) (state : MoveState n α)
    (node : Fin n) :
    bestCommunity level state node
      = (Scratch.fresh.collect state.community level.rows[node]).choose level state node := by
  rw [bestCommunity, Scratch.best, if_neg heavy]

/-- The nodes before do not matter for the best community. -/
theorem Scratch.Clean.best_eq {s : Scratch n α} (h : s.Clean)
    (level : Level n α) (state : MoveState n α) (node : Fin n) :
    (s.best level state node).1 = bestCommunity level state node := by
  unfold bestCommunity Scratch.best
  split
  · rfl
  · dsimp only
    rw [h.collect_eq]

end NetworkAnalysis.Community
