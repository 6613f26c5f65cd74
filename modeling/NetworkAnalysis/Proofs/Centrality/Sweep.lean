import Mathlib.Tactic.FieldSimp
import NetworkAnalysis.Proofs.Centrality.Dependency

/-!
# The sweep

The sweep goes through the nodes from the farthest on. Whatever a node gets from the nodes one layer farther
away has come together when the node is swept, so that it hands on the shares of all walks on from it
(`Swept.handOn`). When all nodes are swept, the dependency on each node is its number of paths times these
shares, without the walk of no steps, and the arrays are clean again.
-/

namespace NetworkAnalysis.Centrality.Scratch

variable {n : Nat} {neighbours : Fin n → List (Fin n)} {source : Fin n} {w t : Scratch n Rat}

theorem foldl_credit (paths : Table n Rat) (part : Rat) (nodes : List (Fin n))
    (dependency : Table n Rat) (v : Fin n) :
    (nodes.foldl (credit paths part) dependency)[v]
      = dependency[v] + (nodes.count v : Rat) * (paths[v] * part) := by
  induction nodes generalizing dependency with
  | nil => simp
  | cons node rest ih =>
    rw [List.foldl_cons, ih, credit, Table.getElem_set, List.count_cons]
    by_cases same : node = v
    · subst same
      simp only [if_true, beq_self_eq_true, Nat.cast_add, Nat.cast_one]
      ring
    · simp [same]

/-- What a list of nodes has handed on to a node. -/
def credits (neighbours : Fin n → List (Fin n)) (w : Scratch n Rat) (swept : List (Fin n)) (v : Fin n) :
    Rat :=
  (swept.map fun x => ((w.predecessors[x]).count v : Rat) * (w.paths[v] * onward neighbours w x)).sum

/-- The arrays when a list of nodes is swept. -/
structure Swept (neighbours : Fin n → List (Fin n)) (w : Scratch n Rat) (swept : List (Fin n))
    (t : Scratch n Rat) : Prop where
  paths : t.paths = w.paths
  distance : t.distance = w.distance
  predecessors : t.predecessors = w.predecessors
  visited : t.visited = w.visited
  dependency : ∀ v : Fin n, t.dependency[v] = credits neighbours w swept v

namespace Explored

variable (h : Explored neighbours source w)

include h

theorem swept_nil : Swept neighbours w [] w :=
  ⟨rfl, rfl, rfl, rfl, h.layered.dependency⟩

/-- From all nodes of the next layer a node gets its paths times the shares of the walks on from it, without
the walk of no steps. -/
theorem credits_eq {swept rest : List (Fin n)} (split : w.visited = swept ++ rest) {v : Fin n}
    (member : v ∈ w.visited) (all : ∀ x ∈ w.visited, w.level x = w.level v + 1 → x ∈ swept) :
    credits neighbours w swept v = w.paths[v] * onward neighbours w v - 1 := by
  have inside : ∀ x ∈ swept, x ∈ w.visited := by
    intro x earlier
    rw [split]
    exact List.mem_append_left _ earlier
  have nodup : swept.Nodup := by
    have := h.nodup
    rw [split] at this
    exact (List.nodup_append.1 this).1
  have handed : credits neighbours w swept v = w.paths[v] * ∑ x,
      if x ∈ w.visited ∧ w.level x = w.level v + 1 then
        ((neighbours v).count x : Rat) * onward neighbours w x else 0 := by
    rw [credits, ← List.sum_toFinset _ nodup, Finset.mul_sum]
    calc _ = ∑ x ∈ swept.toFinset, w.paths[v] * (if x ∈ w.visited ∧ w.level x = w.level v + 1 then
            ((neighbours v).count x : Rat) * onward neighbours w x else 0) := by
          refine Finset.sum_congr rfl fun x earlier => ?_
          have visited := inside x (List.mem_toFinset.1 earlier)
          rw [h.count_predecessors visited]
          by_cases next : w.level x = w.level v + 1
          · rw [if_pos ⟨member, next⟩, if_pos ⟨visited, next⟩]
            ring
          · rw [if_neg fun both => next both.2, if_neg fun both => next both.2]
            simp
      _ = _ := by
          refine Finset.sum_subset (Finset.subset_univ _) fun x _ outside => ?_
          rw [if_neg fun both => outside (List.mem_toFinset.2 (all x both.1 both.2)), mul_zero]
  have nonzero := h.paths_ne_zero member
  rw [handed, h.onward_eq member]
  field_simp
  ring

theorem credits_eq_zero {swept rest : List (Fin n)} (split : w.visited = swept ++ rest) {v : Fin n}
    (outside : v ∉ w.visited) : credits neighbours w swept v = 0 := by
  refine List.sum_eq_zero fun value member => ?_
  obtain ⟨x, earlier, rfl⟩ := List.mem_map.1 member
  rw [h.count_predecessors (by rw [split]; exact List.mem_append_left _ earlier),
    if_neg fun both => outside both.1, Nat.cast_zero, zero_mul]

end Explored

/-- A node hands on the shares of all walks on from it. -/
theorem Swept.handOn (h : Explored neighbours source w) {swept rest : List (Fin n)} {node : Fin n}
    (split : w.visited = swept ++ node :: rest) (s : Swept neighbours w swept t) :
    Swept neighbours w (swept ++ [node]) (t.handOn node) := by
  have member : node ∈ w.visited := by simp [split]
  -- the nodes after it are no farther away
  have all : ∀ x ∈ w.visited, w.level x = w.level node + 1 → x ∈ swept := by
    intro x visited next
    have descending := h.descending
    rw [split, List.pairwise_append, List.pairwise_cons] at descending
    rw [split, List.mem_append, List.mem_cons] at visited
    rcases visited with earlier | rfl | later
    · exact earlier
    · omega
    · have := descending.2.1.1 x later
      omega
  have part : (1 + t.dependency[node]) / t.paths[node] = onward neighbours w node := by
    have nonzero := h.paths_ne_zero member
    rw [s.dependency, s.paths, h.credits_eq split member all]
    field_simp
    ring
  refine ⟨s.paths, s.distance, s.predecessors, s.visited, fun v => ?_⟩
  have handed : (t.handOn node).dependency[v] = t.dependency[v]
      + ((t.predecessors[node]).count v : Rat)
        * (t.paths[v] * ((1 + t.dependency[node]) / t.paths[node])) :=
    foldl_credit _ _ _ _ v
  rw [handed, part, s.dependency, s.predecessors, s.paths, credits, credits, List.map_append,
    List.sum_append, List.map_singleton, List.sum_singleton]

/-- The sweep goes on from what is swept. -/
theorem Swept.sweep (h : Explored neighbours source w) {swept nodes rest : List (Fin n)}
    (split : w.visited = swept ++ (nodes ++ rest)) (s : Swept neighbours w swept t) (polls : Nat) :
    Swept neighbours w (swept ++ nodes) (sweep .always polls nodes t).1
      ∧ (sweep .always polls nodes t).2.2 = true := by
  induction nodes generalizing swept t polls with
  | nil => exact ⟨by rwa [List.append_nil], rfl⟩
  | cons node nodes ih =>
    have next := ih (by rw [split]; simp) (s.handOn h split) (polls + 1)
    rwa [List.append_assoc] at next

namespace Explored

variable (h : Explored neighbours source w)

include h

/-- Some of the visited nodes are swept, from the farthest on. -/
theorem swept_sweep {swept rest : List (Fin n)} (split : w.visited = swept ++ rest) (polls : Nat) :
    Swept neighbours w swept (sweep .always polls swept w).1
      ∧ (sweep .always polls swept w).2.2 = true :=
  h.swept_nil.sweep h split polls

/-- Nothing is divided by zero. -/
theorem divisor_ne_zero {swept rest : List (Fin n)} {node : Fin n}
    (split : w.visited = swept ++ node :: rest) (polls : Nat) :
    (sweep .always polls swept w).1.paths[node] ≠ 0 := by
  rw [(h.swept_sweep split polls).1.paths]
  exact h.paths_ne_zero (by simp [split])

end Explored

namespace Swept

variable (s : Swept neighbours w w.visited t) (h : Explored neighbours source w)

include s h

theorem dependency_eq {v : Fin n} (member : v ∈ w.visited) :
    t.dependency[v] = w.paths[v] * onward neighbours w v - 1 := by
  rw [s.dependency]
  exact h.credits_eq (List.append_nil _).symm member fun x visited _ => visited

theorem dependency_eq_zero {v : Fin n} (outside : v ∉ w.visited) : t.dependency[v] = 0 := by
  rw [s.dependency]
  exact h.credits_eq_zero (List.append_nil _).symm outside

/-- After the sweep only the entries of visited nodes differ from those of fresh arrays. -/
theorem clean : t.Clean := by
  have unknown : ∀ v : Fin n, v ∉ w.visited → w.distance[v] = none := fun v outside =>
    not_not.1 fun known => outside (h.mem_visited.2 known)
  constructor
  case paths =>
    intro v outside
    rw [s.visited] at outside
    have other : source ≠ v := by
      rintro rfl
      exact outside (h.mem_visited_of_hops (Hops.self neighbours source)).1
    rw [s.paths, h.counted, unknown v outside, if_neg other, zero_add]
    refine List.sum_eq_zero fun value member => ?_
    obtain ⟨u, -, rfl⟩ := List.mem_map.1 member
    rfl
  case distance =>
    intro v outside
    rw [s.visited] at outside
    rw [s.distance, unknown v outside]
  case dependency =>
    intro v outside
    rw [s.visited] at outside
    exact s.dependency_eq_zero h outside
  case predecessors =>
    intro v outside
    rw [s.visited] at outside
    rw [s.predecessors, h.layered.predecessors, unknown v outside]
    simp

end Swept

end NetworkAnalysis.Centrality.Scratch
