import Mathlib.Data.Rat.Defs
import NetworkAnalysis.Proofs.Centrality.Walks

/-!
# Shares of shortest paths

A walk is the list of the relationships it follows, each seen from the end it is followed from; relationships
between the same nodes make different walks. The shortest paths between two nodes are the walks with the
least number of relationships, and a node in between has the share of them that pass through it.

In numbers: a shortest path passes through a node only where it is as many hops away as the node itself,
so that the paths through the node are pairs of a walk to it and a walk on from it.
-/

namespace NetworkAnalysis.Centrality

variable {n : Nat}

/-! ## Walks along relationships -/

/-- The walks from a node with a given number of relationships. -/
def walks (steps : Fin n → List (Relationship n)) : Nat → Fin n → List (List (Relationship n))
  | 0, _ => [[]]
  | k + 1, node => (steps node).flatMap fun r => (walks steps k r.other).map (r :: ·)

/-- The node where a walk from a node ends. -/
def lastNode (node : Fin n) : List (Relationship n) → Fin n
  | [] => node
  | r :: rest => lastNode r.other rest

/-- The walks between two nodes with a given number of relationships. -/
def walksBetween (steps : Fin n → List (Relationship n)) (k : Nat) (source target : Fin n) :
    List (List (Relationship n)) :=
  (walks steps k source).filter fun walk => lastNode source walk = target

/-- There is a walk from a node to another. -/
def Connected (steps : Fin n → List (Relationship n)) (source target : Fin n) : Prop :=
  ∃ k, walksBetween steps k source target ≠ []

open Classical in
/-- The walks between two nodes with the least number of relationships. -/
noncomputable def shortestPaths (steps : Fin n → List (Relationship n)) (source target : Fin n) :
    List (List (Relationship n)) :=
  if connected : Connected steps source target then
    walksBetween steps (Nat.find connected) source target
  else
    []

/-- Whether a walk passes through a node after its start. -/
def passes (node : Fin n) (walk : List (Relationship n)) : Bool :=
  walk.any fun r => r.other = node

/-- The share of the shortest paths between two nodes that pass through a third. -/
noncomputable def share (steps : Fin n → List (Relationship n)) (source target node : Fin n) : Rat :=
  (shortestPaths steps source target).countP (passes node) / (shortestPaths steps source target).length

/-! ## Counting -/

section Counting

variable {steps : Fin n → List (Relationship n)}

/-- The node that a walk has reached after some of its relationships. -/
def nodeAfter (node : Fin n) : List (Relationship n) → Nat → Fin n
  | _, 0 => node
  | [], _ + 1 => node
  | r :: rest, i + 1 => nodeAfter r.other rest i

@[simp]
theorem nodeAfter_zero (node : Fin n) (walk : List (Relationship n)) : nodeAfter node walk 0 = node := by
  cases walk <;> rfl

@[simp]
theorem nodeAfter_cons_succ (node : Fin n) (r : Relationship n) (rest : List (Relationship n)) (i : Nat) :
    nodeAfter node (r :: rest) (i + 1) = nodeAfter r.other rest i := rfl

theorem length_of_mem_walks {k : Nat} {node : Fin n} {walk : List (Relationship n)}
    (member : walk ∈ walks steps k node) : walk.length = k := by
  induction k generalizing node walk with
  | zero => rw [List.mem_singleton.1 member, List.length_nil]
  | succ k ih =>
    obtain ⟨r, _, inside⟩ := List.mem_flatMap.1 member
    obtain ⟨rest, member', rfl⟩ := List.mem_map.1 inside
    rw [List.length_cons, ih member']

/-- A walk passes through a node if it is there after some of its relationships. -/
theorem passes_iff (source node : Fin n) (walk : List (Relationship n)) :
    passes node walk = true ↔ ∃ i < walk.length, nodeAfter source walk (i + 1) = node := by
  induction walk generalizing source with
  | nil => simp [passes]
  | cons r rest ih =>
    have both : passes node (r :: rest) = true ↔ r.other = node ∨ passes node rest = true := by
      simp [passes]
    rw [both, ih r.other]
    constructor
    · rintro (here | ⟨i, inside, there⟩)
      · exact ⟨0, Nat.succ_pos _, by simpa using here⟩
      · exact ⟨i + 1, Nat.succ_lt_succ inside, there⟩
    · rintro ⟨i, inside, there⟩
      cases i with
      | zero => exact .inl (by simpa using there)
      | succ i => exact .inr ⟨i, Nat.lt_of_succ_lt_succ inside, there⟩

/-- The nodes that one relationship leads to. -/
abbrev farEnds (steps : Fin n → List (Relationship n)) (node : Fin n) : List (Fin n) :=
  (steps node).map Relationship.other

theorem countP_walks_succ (k : Nat) (source : Fin n) (p : List (Relationship n) → Bool) :
    (walks steps (k + 1) source).countP p
      = ((steps source).map fun r => (walks steps k r.other).countP fun walk => p (r :: walk)).sum := by
  rw [walks, List.countP_flatMap]
  refine congrArg List.sum (List.map_congr_left fun r _ => ?_)
  rw [Function.comp_apply, List.countP_map]
  rfl

/-- The walks between two nodes, counted. -/
theorem countP_lastNode (k : Nat) (source target : Fin n) :
    (walks steps k source).countP (fun walk => decide (lastNode source walk = target))
      = walkCount (farEnds steps) k source target := by
  induction k generalizing source with
  | zero =>
    by_cases same : source = target <;> simp [walks, walkCount, lastNode, same]
  | succ k ih =>
    rw [countP_walks_succ, walkCount, List.map_map]
    exact congrArg List.sum (List.map_congr_left fun r _ => ih r.other)

/-- The walks that are at one node after some relationships and end at another, counted in two parts. -/
theorem countP_nodeAfter (i k : Nat) (source node target : Fin n) :
    (walks steps (i + k) source).countP
        (fun walk => decide (nodeAfter source walk i = node ∧ lastNode source walk = target))
      = walkCount (farEnds steps) i source node * walkCount (farEnds steps) k node target := by
  induction i generalizing source with
  | zero =>
    rw [Nat.zero_add, walkCount]
    by_cases same : source = node
    · subst same
      simp [countP_lastNode]
    · simp [same]
  | succ i ih =>
    rw [Nat.add_right_comm, countP_walks_succ, walkCount, List.map_map, ← List.sum_map_mul_right]
    exact congrArg List.sum (List.map_congr_left fun r _ => ih r.other)

theorem length_walksBetween (k : Nat) (source target : Fin n) :
    (walksBetween steps k source target).length = walkCount (farEnds steps) k source target := by
  rw [walksBetween, ← List.countP_eq_length_filter, countP_lastNode]

theorem walksBetween_ne_nil {k : Nat} {source target : Fin n} :
    walksBetween steps k source target ≠ [] ↔ walkCount (farEnds steps) k source target ≠ 0 := by
  rw [← length_walksBetween, Ne, Ne, List.length_eq_zero_iff]

theorem connected_iff {source target : Fin n} :
    Connected steps source target ↔ ∃ k, Hops (farEnds steps) source target k := by
  constructor
  · rintro ⟨k, walks⟩
    exact Hops.exists_of_walk (walksBetween_ne_nil.1 walks)
  · rintro ⟨k, hops⟩
    exact ⟨k, walksBetween_ne_nil.2 hops.walk⟩

/-- The shortest paths to a node are the walks with as many relationships as it is hops away. -/
theorem shortestPaths_eq {source target : Fin n} {k : Nat}
    (hops : Hops (farEnds steps) source target k) :
    shortestPaths steps source target = walksBetween steps k source target := by
  have connected : Connected steps source target := connected_iff.2 ⟨k, hops⟩
  classical
  have least : Hops (farEnds steps) source target (Nat.find connected) :=
    ⟨walksBetween_ne_nil.1 (Nat.find_spec connected), fun j less =>
      not_not.1 fun walks => Nat.find_min connected less (walksBetween_ne_nil.2 walks)⟩
  rw [shortestPaths, dif_pos connected, hops.unique least]

/-- Where a walk passes through a node, it is made of a walk to it and a walk on from it. -/
theorem walkCount_of_nodeAfter {source node target : Fin n} {i k : Nat}
    {walk : List (Relationship n)} (member : walk ∈ walksBetween steps k source target) (le : i ≤ k)
    (there : nodeAfter source walk i = node) :
    walkCount (farEnds steps) i source node ≠ 0
      ∧ walkCount (farEnds steps) (k - i) node target ≠ 0 := by
  obtain ⟨member, last⟩ := List.mem_filter.1 member
  obtain ⟨rest, rfl⟩ := Nat.exists_eq_add_of_le le
  have counted : 0 < (walks steps (i + rest) source).countP
      (fun walk => decide (nodeAfter source walk i = node ∧ lastNode source walk = target)) :=
    List.countP_pos_iff.2 ⟨walk, member, by simpa [there] using last⟩
  rw [countP_nodeAfter] at counted
  rw [Nat.add_sub_cancel_left]
  exact ⟨Nat.ne_of_gt (Nat.pos_of_mul_pos_right counted), Nat.ne_of_gt (Nat.pos_of_mul_pos_left counted)⟩

/-- A shortest path passes through a node only after as many relationships as the node is hops away. -/
theorem nodeAfter_eq_of_shortest {source node target : Fin n} {i j k : Nat}
    (target' : Hops (farEnds steps) source target k) (node' : Hops (farEnds steps) source node j)
    {walk : List (Relationship n)} (member : walk ∈ walksBetween steps k source target)
    (le : i ≤ k) (there : nodeAfter source walk i = node) : i = j := by
  obtain ⟨first, second⟩ := walkCount_of_nodeAfter member le there
  have short := target'.le (walkCount_add_ne_zero node'.walk second)
  have long := node'.le first
  omega

/-- The shortest paths through a node are pairs of a walk to it and a walk on from it. -/
theorem countP_passes {source node target : Fin n} {j k : Nat}
    (target' : Hops (farEnds steps) source target k) (node' : Hops (farEnds steps) source node j)
    (other : source ≠ node) (le : j ≤ k) :
    (shortestPaths steps source target).countP (passes node)
      = walkCount (farEnds steps) j source node * walkCount (farEnds steps) (k - j) node target := by
  have counted := @countP_nodeAfter n steps j (k - j) source node target
  rw [Nat.add_sub_cancel' le] at counted
  rw [shortestPaths_eq target', ← counted, walksBetween, List.countP_filter]
  refine List.countP_congr fun walk member => ?_
  rw [Bool.and_eq_true, decide_eq_true_eq, decide_eq_true_eq, passes_iff source,
    length_of_mem_walks member]
  refine and_congr_left fun last => ⟨?_, fun there => ?_⟩
  · rintro ⟨i, inside, there⟩
    have between : walk ∈ walksBetween steps k source target :=
      List.mem_filter.2 ⟨member, decide_eq_true last⟩
    rwa [← nodeAfter_eq_of_shortest target' node' between inside there]
  · cases j with
    | zero => exact absurd (there ▸ (nodeAfter_zero source walk).symm) other
    | succ j => exact ⟨j, le, there⟩

/-- No shortest path passes through a node that is farther away than its end. -/
theorem countP_passes_eq_zero {source node target : Fin n} {k : Nat}
    (target' : Hops (farEnds steps) source target k)
    (far : ∀ j, Hops (farEnds steps) source node j → k < j) :
    (shortestPaths steps source target).countP (passes node) = 0 := by
  rw [shortestPaths_eq target', List.countP_eq_zero]
  intro walk between passing
  obtain ⟨member, -⟩ := List.mem_filter.1 between
  obtain ⟨i, inside, there⟩ := (passes_iff source node walk).1 passing
  rw [length_of_mem_walks member] at inside
  obtain ⟨first, -⟩ := walkCount_of_nodeAfter between inside there
  obtain ⟨j, hops⟩ := Hops.exists_of_walk first
  have near := hops.le first
  have := far j hops
  omega

end Counting

/-! ## Paths back -/

/-- As many relationships lead from one node to another as lead back. -/
def Reversed (steps back : Fin n → List (Relationship n)) : Prop :=
  ∀ u v, (farEnds steps u).count v = (farEnds back v).count u

namespace Reversed

variable {steps back : Fin n → List (Relationship n)}

theorem symm (h : Reversed steps back) : Reversed back steps :=
  fun u v => (h v u).symm

theorem connected (h : Reversed steps back) {source target : Fin n} (there : Connected steps source target) :
    Connected back target source := by
  obtain ⟨k, hops⟩ := connected_iff.1 there
  exact connected_iff.2 ⟨k, hops.reverse h⟩

theorem length_shortestPaths (h : Reversed steps back) {source target : Fin n} {k : Nat}
    (hops : Hops (farEnds steps) source target k) :
    (shortestPaths steps source target).length = (shortestPaths back target source).length := by
  rw [shortestPaths_eq hops, shortestPaths_eq (hops.reverse h), length_walksBetween, length_walksBetween,
    walkCount_reverse h]

/-- Shortest paths through a node can be followed back. -/
theorem countP_passes_of_ne_zero (h : Reversed steps back) {source node target : Fin n} {k : Nat}
    (target' : Hops (farEnds steps) source target k) (first : source ≠ node) (last : target ≠ node)
    (passed : (shortestPaths steps source target).countP (passes node) ≠ 0) :
    (shortestPaths steps source target).countP (passes node)
      = (shortestPaths back target source).countP (passes node) := by
  obtain ⟨j, node', le⟩ : ∃ j, Hops (farEnds steps) source node j ∧ j ≤ k := by
    by_contra apart
    refine passed (countP_passes_eq_zero target' fun j hops => Nat.lt_of_not_le fun le => ?_)
    exact apart ⟨j, hops, le⟩
  rw [countP_passes target' node' first le] at passed ⊢
  have onward : Hops (farEnds steps) node target (k - j) := by
    refine ⟨Nat.ne_zero_of_mul_ne_zero_right passed, fun i less => ?_⟩
    by_contra walk
    have := target'.le (walkCount_add_ne_zero node'.walk walk)
    omega
  rw [countP_passes (target'.reverse h) (onward.reverse h) last (Nat.sub_le k j), Nat.sub_sub_self le,
    walkCount_reverse h j, walkCount_reverse h (k - j), Nat.mul_comm]

/-- A node has the same share in the paths from one node to another as in the paths back. -/
theorem share_eq (h : Reversed steps back) {source node target : Fin n}
    (there : Connected steps source target) (first : source ≠ node) (last : target ≠ node) :
    share steps source target node = share back target source node := by
  obtain ⟨k, hops⟩ := connected_iff.1 there
  have passing : (shortestPaths steps source target).countP (passes node)
      = (shortestPaths back target source).countP (passes node) := by
    by_cases unpassed : (shortestPaths steps source target).countP (passes node) = 0
    · by_cases unpassed' : (shortestPaths back target source).countP (passes node) = 0
      · rw [unpassed, unpassed']
      · exact (h.symm.countP_passes_of_ne_zero (hops.reverse h) last first unpassed').symm
    · exact h.countP_passes_of_ne_zero hops first last unpassed
  rw [share, share, passing, h.length_shortestPaths hops]

end Reversed

end NetworkAnalysis.Centrality
