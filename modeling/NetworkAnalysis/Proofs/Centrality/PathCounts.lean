import Mathlib.Algebra.Order.Ring.Rat
import Mathlib.Tactic.Ring
import NetworkAnalysis.Proofs.Centrality.Layers

/-!
# The numbers of shortest paths

In exact arithmetic an exploration counts shortest paths. What is counted for a node is the sum of what is
counted for the dequeued nodes one layer nearer, once for each relationship from there (`Counted`); the
numbers of walks that are as long as the hops obey the same recurrence.
-/

namespace NetworkAnalysis.Centrality.Scratch

variable {n : Nat} {neighbours : Fin n → List (Fin n)} {source node : Fin n} {w : Scratch n Rat}

/-- Every node has the paths that end at the dequeued nodes one layer nearer. -/
def Counted (neighbours : Fin n → List (Fin n)) (source : Fin n) (w : Scratch n Rat) : Prop :=
  ∀ v : Fin n, w.paths[v] = (if source = v then 1 else 0)
    + (w.visited.map fun u =>
        if w.distance[v] = some (w.level u + 1) then ((neighbours u).count v : Rat) * w.paths[u] else 0).sum

/-- The steps from a node add its paths to the nodes on the level, once for each step. -/
theorem paths_foldl (node : Fin n) (level : Nat) (nodes : List (Fin n)) (w : Scratch n Rat)
    (known : w.distance[node] ≠ none) (other : w.distance[node] ≠ some level) (v : Fin n) :
    (nodes.foldl (touch node level) w).paths[v] = w.paths[v]
      + if (nodes.foldl (touch node level) w).distance[v] = some level then
          (nodes.count v : Rat) * w.paths[node]
        else 0 := by
  induction nodes generalizing w with
  | nil => simp
  | cons next rest ih =>
    have itself : (touch node level w next).distance[node] = w.distance[node] := by
      rw [distance_touch, if_neg fun h => known h.2]
    have kept : (touch node level w next).paths[node] = w.paths[node] := by
      rw [paths_touch, if_neg fun h => other (itself ▸ h.2)]
    rw [List.foldl_cons, ih _ (itself ▸ known) (itself ▸ other), kept, paths_touch, List.count_cons]
    by_cases same : next = v
    · subst same
      have stays := (touched_foldl node level rest (touch node level w next)).keeps
        (distance_touch_ne_none node level w next)
      simp only [stays, true_and, beq_self_eq_true, if_true, Nat.cast_add, Nat.cast_one]
      split <;> ring
    · simp [same]

/-- Visiting the next node of the queue keeps the counts: its own goes to the neighbours on the next level, as often as
it leads to them. -/
theorem Counted.visit (h : w.Counted neighbours source) (layered : w.Layered neighbours source)
    {rest : Queue (Fin n)} (popped : w.queue.pop? = some (node, rest)) :
    (w.visit neighbours node rest).Counted neighbours source := by
  obtain ⟨new, visit⟩ := layered.visited_visit popped
  have here := mem_found_of_pop? popped
  have its := distance_eq_some_level ((layered.known node).2 here)
  have added : ∀ v : Fin n, (w.visit neighbours node rest).paths[v] = w.paths[v]
      + if (w.visit neighbours node rest).distance[v] = some (w.level node + 1) then
          ((neighbours node).count v : Rat) * w.paths[node]
        else 0 :=
    paths_foldl node (w.level node + 1) (neighbours node)
      { w with visited := node :: w.visited, queue := rest } ((layered.known node).2 here)
      fun same => Nat.succ_ne_self _ (Option.some.inj (same.symm.trans its))
  generalize w.visit neighbours node rest = t at visit added ⊢
  -- the paths to a dequeued node stay as they are
  have kept : ∀ u ∈ w.found, w.level u ≤ w.level node → t.paths[u] = w.paths[u] := by
    intro u inside le
    rw [added, if_neg, add_zero]
    rw [visit.old u inside, distance_eq_some_level ((layered.known u).2 inside)]
    intro same
    have := Option.some.inj same
    omega
  intro v
  rw [added, h v, visit.visited, List.map_cons, List.sum_cons, visit.level_old here,
    kept node here (Nat.le_refl _), add_assoc, add_comm (List.sum _)]
  refine congrArg _ (congrArg _ (congrArg List.sum (List.map_congr_left fun u member => ?_)))
  have inside := mem_found_of_mem_visited member
  rw [visit.level_old inside, kept u inside (layered.level_le_of_mem_visited popped member)]
  by_cases unknown : w.distance[v] = none
  · rw [layered.count_eq_zero member unknown, Nat.cast_zero, zero_mul, ite_self, ite_self]
  · rw [visit.old v ((layered.known v).1 unknown)]

theorem counted_start (neighbours : Fin n → List (Fin n)) (source : Fin n) :
    ((fresh : Scratch n Rat).start source).Counted neighbours source := by
  intro v
  rw [paths_start, visited_start, List.map_nil, List.sum_nil, add_zero]
  rfl

theorem Counted.explore (h : w.Counted neighbours source) (layered : w.Layered neighbours source)
    (watch : Watch) (polls : Nat) : (w.explore neighbours watch polls).1.Counted neighbours source := by
  fun_induction Scratch.explore neighbours watch polls w with
  | case1 polls w popped => exact h
  | case2 polls w node rest popped stop => exact h
  | case3 polls w node rest popped more ih => exact ih (h.visit layered popped) (layered.visit popped)

/-- When the queue is empty, the paths to a node are the walks that are as long as it is hops away. -/
theorem Counted.paths_eq (h : w.Counted neighbours source) (layered : w.Layered neighbours source)
    (popped : w.queue.pop? = none) {v : Fin n} {k : Nat} (hops : Hops neighbours source v k) :
    w.paths[v] = walkCount neighbours k source v := by
  have nodup := layered.nodup_visited popped
  induction k using Nat.strongRecOn generalizing v with
  | _ k ih =>
    have its := (layered.distance_eq_some_iff popped).2 hops
    rw [h v, its, ← List.sum_toFinset _ nodup]
    cases k with
    | zero =>
      obtain rfl := hops.eq_source
      rw [if_pos rfl, Finset.sum_eq_zero fun u _ => if_neg (by simp)]
      simp [walkCount]
    | succ k =>
      have other : source ≠ v := by
        rintro rfl
        have := hops.unique (Hops.self neighbours source)
        omega
      have apart : ∀ u, ¬Hops neighbours source u k →
          ((walkCount neighbours k source u * (neighbours u).count v : Nat) : Rat) = 0 := by
        intro u away
        rw [hops.eq_zero_of_succ away, Nat.cast_zero]
      rw [if_neg other, zero_add, walkCount_succ_right, Nat.cast_sum]
      calc _ = ∑ u ∈ w.visited.toFinset,
            ((walkCount neighbours k source u * (neighbours u).count v : Nat) : Rat) := by
            refine Finset.sum_congr rfl fun u member => ?_
            have known := distance_eq_some_level
              ((layered.mem_visited popped).1 (List.mem_toFinset.1 member))
            have hops' := (layered.distance_eq_some_iff popped).1 known
            by_cases near : w.level u = k
            · rw [near] at hops'
              rw [near, if_pos rfl, ih k (Nat.lt_succ_self k) hops', Nat.cast_mul, mul_comm]
            · rw [if_neg fun same => near (Nat.succ.inj (Option.some.inj same)).symm, apart u]
              intro hops''
              exact near (hops'.unique hops'')
        _ = _ := by
            refine Finset.sum_subset (Finset.subset_univ _) fun u _ outside => apart u fun hops' => ?_
            refine outside (List.mem_toFinset.2 ((layered.mem_visited popped).2 ?_))
            rw [(layered.distance_eq_some_iff popped).2 hops']
            exact Option.some_ne_none _

end NetworkAnalysis.Centrality.Scratch
