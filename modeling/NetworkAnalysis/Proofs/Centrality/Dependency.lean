import Mathlib.Algebra.BigOperators.Field
import NetworkAnalysis.Proofs.Centrality.PathCounts

/-!
# Dependencies

The dependency of a source on a node is its number of paths times the shares of the walks that lead on from
it, without the walk of no steps (`onward`). These shares obey a recurrence from each layer to the next one,
and the sweep computes them: it goes through the nodes from the farthest on, so that the dependency of a node
is complete when it is handed on.
-/

namespace NetworkAnalysis.Centrality.Scratch

variable {n : Nat} {neighbours : Fin n → List (Fin n)} {source : Fin n} {w t : Scratch n Rat}

/-- An exploration has come to its end. -/
structure Explored (neighbours : Fin n → List (Fin n)) (source : Fin n) (w : Scratch n Rat) : Prop where
  layered : w.Layered neighbours source
  counted : w.Counted neighbours source
  popped : w.queue.pop? = none

theorem explored_explore (neighbours : Fin n → List (Fin n)) (source : Fin n) (polls : Nat) :
    Explored neighbours source
      (((fresh : Scratch n Rat).start source).explore neighbours .always polls).1 := by
  have layered := @layered_start n Rat _ neighbours source
  exact ⟨(layered.explore .always polls).1,
    (counted_start neighbours source).explore layered .always polls,
    (layered.explore .always polls).2 (explore_always neighbours polls _)⟩

namespace Explored

variable (h : Explored neighbours source w)

include h

theorem mem_visited {v : Fin n} : v ∈ w.visited ↔ w.distance[v] ≠ none :=
  h.layered.mem_visited h.popped

theorem hops {v : Fin n} (member : v ∈ w.visited) : Hops neighbours source v (w.level v) :=
  (h.layered.distance_eq_some_iff h.popped).1 (distance_eq_some_level (h.mem_visited.1 member))

theorem mem_visited_of_hops {v : Fin n} {k : Nat} (hops : Hops neighbours source v k) :
    v ∈ w.visited ∧ w.level v = k := by
  have its := (h.layered.distance_eq_some_iff h.popped).2 hops
  exact ⟨h.mem_visited.2 (by rw [its]; exact Option.some_ne_none _), level_of_distance its⟩

theorem paths_eq {v : Fin n} (member : v ∈ w.visited) :
    w.paths[v] = walkCount neighbours (w.level v) source v :=
  h.counted.paths_eq h.layered h.popped (h.hops member)

theorem paths_ne_zero {v : Fin n} (member : v ∈ w.visited) : w.paths[v] ≠ 0 := by
  rw [h.paths_eq member, Nat.cast_ne_zero]
  exact (h.hops member).walk

theorem nodup : w.visited.Nodup :=
  h.layered.nodup_visited h.popped

/-- The nodes visited last are the farthest. -/
theorem descending : w.visited.Pairwise fun u v => w.level v ≤ w.level u := by
  have := h.layered.ordered
  rwa [found_eq_visited h.popped, List.pairwise_reverse] at this

/-- A node is a predecessor of the nodes one layer farther away, as often as there are steps to them. -/
theorem count_predecessors {x : Fin n} (member : x ∈ w.visited) (v : Fin n) :
    (w.predecessors[x]).count v
      = if v ∈ w.visited ∧ w.level x = w.level v + 1 then (neighbours v).count x else 0 := by
  have known := distance_eq_some_level (h.mem_visited.1 member)
  rw [h.layered.predecessors, List.count_flatMap, ← List.sum_toFinset _ h.nodup]
  have other : ∀ u ∈ w.visited.toFinset, u ≠ v →
      (List.count v ∘ fun u => if w.distance[x] = some (w.level u + 1) then
        List.replicate ((neighbours u).count x) u else []) u = 0 := by
    intro u _ other
    rw [Function.comp_apply]
    split
    · rw [List.count_replicate, if_neg (by simpa using other)]
    · rfl
  by_cases inside : v ∈ w.visited
  · rw [Finset.sum_eq_single v other fun outside => absurd (List.mem_toFinset.2 inside) outside,
      Function.comp_apply, known]
    by_cases next : w.level x = w.level v + 1
    · simp [next, inside]
    · simp [next]
  · rw [if_neg fun both => inside both.1]
    refine Finset.sum_eq_zero fun u member' => other u member' ?_
    rintro rfl
    exact inside (List.mem_toFinset.1 member')

/-- A step on a shortest path leads to the next layer. -/
theorem next_layer {v x t : Fin n} (here : v ∈ w.visited) (there : t ∈ w.visited)
    (less : w.level v < w.level t) (step : x ∈ neighbours v)
    (walk : walkCount neighbours (w.level t - (w.level v + 1)) x t ≠ 0) :
    x ∈ w.visited ∧ w.level x = w.level v + 1 := by
  obtain ⟨k, known, near⟩ := h.layered.closed v here x step
  have member : x ∈ w.visited := h.mem_visited.2 (by rw [known]; exact Option.some_ne_none _)
  refine ⟨member, ?_⟩
  have far := (h.hops there).le (walkCount_add_ne_zero (h.hops member).walk walk)
  rw [level_of_distance known] at far ⊢
  omega

end Explored

/-- The share of the walks on from a node that end at another. -/
def reach (neighbours : Fin n → List (Fin n)) (w : Scratch n Rat) (v t : Fin n) : Rat :=
  if t ∈ w.visited ∧ w.level v ≤ w.level t then
    (walkCount neighbours (w.level t - w.level v) v t : Rat) / w.paths[t]
  else
    0

/-- The shares of the walks on from a node, the walk of no steps included. -/
def onward (neighbours : Fin n → List (Fin n)) (w : Scratch n Rat) (v : Fin n) : Rat :=
  ∑ t, reach neighbours w v t

namespace Explored

variable (h : Explored neighbours source w)

include h

/-- Walks to a node are of no steps, or go on from the next layer. -/
theorem reach_eq {v : Fin n} (member : v ∈ w.visited) (t : Fin n) :
    reach neighbours w v t = (if v = t then 1 / w.paths[v] else 0)
      + ∑ x, if x ∈ w.visited ∧ w.level x = w.level v + 1 then
          ((neighbours v).count x : Rat) * reach neighbours w x t else 0 := by
  have outside : ¬(t ∈ w.visited ∧ w.level v < w.level t) →
      ∑ x, (if x ∈ w.visited ∧ w.level x = w.level v + 1 then
        ((neighbours v).count x : Rat) * reach neighbours w x t else 0) = 0 := by
    refine fun near => Finset.sum_eq_zero fun x _ => ?_
    split
    · next next =>
      rw [reach, if_neg, mul_zero]
      intro both
      exact near ⟨both.1, by omega⟩
    · rfl
  by_cases inside : t ∈ w.visited
  · rcases Nat.lt_trichotomy (w.level v) (w.level t) with less | same | more
    · have other : v ≠ t := by
        rintro rfl
        exact Nat.lt_irrefl _ less
      obtain ⟨k, far⟩ := Nat.exists_eq_add_of_le (Nat.succ_le_of_lt less)
      have first : w.level t - w.level v = k + 1 := by omega
      have later : w.level t - (w.level v + 1) = k := by omega
      rw [if_neg other, zero_add, reach, if_pos ⟨inside, Nat.le_of_lt less⟩, first, walkCount_succ,
        Nat.cast_sum, Finset.sum_div]
      refine Finset.sum_congr rfl fun x _ => ?_
      by_cases next : x ∈ w.visited ∧ w.level x = w.level v + 1
      · rw [if_pos next, reach, if_pos ⟨inside, by omega⟩, next.2, later, Nat.cast_mul, mul_div_assoc]
      · rw [if_neg next, Nat.cast_eq_zero.2, zero_div]
        by_contra leads
        refine next (h.next_layer member inside less ?_ ?_)
        · exact List.count_pos_iff.1 (Nat.pos_of_ne_zero (Nat.ne_zero_of_mul_ne_zero_left leads))
        · rw [later]
          exact Nat.ne_zero_of_mul_ne_zero_right leads
    · rw [outside (by omega), add_zero, reach, if_pos ⟨inside, Nat.le_of_eq same⟩, same, Nat.sub_self]
      by_cases here : v = t
      · subst here
        simp [walkCount]
      · simp [walkCount, here]
    · have other : v ≠ t := by
        rintro rfl
        exact Nat.lt_irrefl _ more
      rw [outside (by omega), add_zero, if_neg other, reach, if_neg (by omega)]
  · have other : v ≠ t := by
      rintro rfl
      exact inside member
    rw [outside fun both => inside both.1, add_zero, if_neg other, reach,
      if_neg fun both => inside both.1]

theorem onward_eq {v : Fin n} (member : v ∈ w.visited) :
    onward neighbours w v = 1 / w.paths[v]
      + ∑ x, if x ∈ w.visited ∧ w.level x = w.level v + 1 then
          ((neighbours v).count x : Rat) * onward neighbours w x else 0 := by
  rw [onward, Finset.sum_congr rfl fun t _ => h.reach_eq member t, Finset.sum_add_distrib,
    Finset.sum_ite_eq, if_pos (Finset.mem_univ v), Finset.sum_comm]
  refine congrArg _ (Finset.sum_congr rfl fun x _ => ?_)
  by_cases next : x ∈ w.visited ∧ w.level x = w.level v + 1
  · simp only [if_pos next, onward, Finset.mul_sum]
  · simp only [if_neg next, Finset.sum_const_zero]

end Explored

end NetworkAnalysis.Centrality.Scratch
