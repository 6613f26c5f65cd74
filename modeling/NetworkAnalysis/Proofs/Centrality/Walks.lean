import Mathlib.Algebra.BigOperators.Fin
import Mathlib.Algebra.BigOperators.Group.Finset.Basic
import Mathlib.Algebra.Order.BigOperators.Group.Finset
import Mathlib.Data.Fintype.Basic
import NetworkAnalysis.Adjacency.Row

/-!
# Counting walks

Walks of a given length are counted by following the first step (`walkCount`). Relationships between the same
nodes are different steps, so that a walk is counted once for each choice among them. Counts multiply where
walks are put together (`walkCount_add`). The number of hops to a node is the least length of a walk to it.
-/

namespace NetworkAnalysis.Centrality

variable {n : Nat}

/-- A sum over a list, node by node. -/
theorem sum_map_eq_sum_count {M : Type} [Semiring M] (nodes : List (Fin n)) (f : Fin n → M) :
    (nodes.map f).sum = ∑ v, (nodes.count v : M) * f v := by
  induction nodes with
  | nil => simp
  | cons node rest ih =>
    rw [List.map_cons, List.sum_cons, ih]
    have split : ∀ v, ((node :: rest).count v : M) * f v
        = (if node = v then f v else 0) + (rest.count v : M) * f v := by
      intro v
      rw [List.count_cons]
      by_cases same : node = v
      · simp [same, add_mul, add_comm]
      · simp [same]
    rw [Finset.sum_congr rfl fun v _ => split v, Finset.sum_add_distrib, Finset.sum_ite_eq]
    simp

section Count

variable (neighbours : Fin n → List (Fin n))

/-- The number of walks with a given number of steps from a node to another. -/
def walkCount : Nat → Fin n → Fin n → Nat
  | 0, u, v => if u = v then 1 else 0
  | k + 1, u, v => ((neighbours u).map fun w => walkCount k w v).sum

theorem walkCount_succ (k : Nat) (u v : Fin n) :
    walkCount neighbours (k + 1) u v
      = ∑ w, (neighbours u).count w * walkCount neighbours k w v := by
  rw [walkCount, sum_map_eq_sum_count]
  rfl

theorem walkCount_one (u v : Fin n) : walkCount neighbours 1 u v = (neighbours u).count v := by
  rw [walkCount_succ]
  simp [walkCount]

/-- Walks are put together at the node after their first part. -/
theorem walkCount_add (j k : Nat) (u v : Fin n) :
    walkCount neighbours (j + k) u v
      = ∑ w, walkCount neighbours j u w * walkCount neighbours k w v := by
  induction j generalizing u with
  | zero => simp [walkCount]
  | succ j ih =>
    calc walkCount neighbours (j + 1 + k) u v
      _ = ∑ x, (neighbours u).count x * ∑ w, walkCount neighbours j x w * walkCount neighbours k w v := by
        rw [Nat.succ_add_eq_add_succ, Nat.add_succ, walkCount_succ]
        exact Finset.sum_congr rfl fun x _ => by rw [ih]
      _ = ∑ w, (∑ x, (neighbours u).count x * walkCount neighbours j x w)
            * walkCount neighbours k w v := by
        simp only [Finset.mul_sum, Finset.sum_mul, mul_assoc]
        exact Finset.sum_comm
      _ = ∑ w, walkCount neighbours (j + 1) u w * walkCount neighbours k w v := by
        simp only [walkCount_succ]

theorem walkCount_succ_right (k : Nat) (u v : Fin n) :
    walkCount neighbours (k + 1) u v
      = ∑ w, walkCount neighbours k u w * (neighbours w).count v := by
  rw [walkCount_add]
  simp only [walkCount_one]

variable {neighbours}

theorem walkCount_add_ne_zero {j k : Nat} {u v w : Fin n} (first : walkCount neighbours j u w ≠ 0)
    (second : walkCount neighbours k w v ≠ 0) : walkCount neighbours (j + k) u v ≠ 0 := by
  rw [walkCount_add]
  have one : walkCount neighbours j u w * walkCount neighbours k w v
      ≤ ∑ x, walkCount neighbours j u x * walkCount neighbours k x v :=
    Finset.single_le_sum (f := fun x => walkCount neighbours j u x * walkCount neighbours k x v)
      (fun _ _ => Nat.zero_le _) (Finset.mem_univ w)
  exact Nat.ne_of_gt (Nat.lt_of_lt_of_le (Nat.pos_of_ne_zero (Nat.mul_ne_zero first second)) one)

theorem walkCount_one_ne_zero {u v : Fin n} (step : v ∈ neighbours u) :
    walkCount neighbours 1 u v ≠ 0 := by
  rw [walkCount_one]
  exact Nat.ne_of_gt (List.count_pos_iff.2 step)

/-- Where steps lead back, so do walks. -/
theorem walkCount_reverse {back : Fin n → List (Fin n)}
    (reversed : ∀ u v, (neighbours u).count v = (back v).count u) (k : Nat) (u v : Fin n) :
    walkCount neighbours k u v = walkCount back k v u := by
  induction k generalizing u v with
  | zero => simp [walkCount, eq_comm]
  | succ k ih =>
    rw [walkCount_succ, walkCount_succ_right]
    refine Finset.sum_congr rfl fun w _ => ?_
    rw [reversed u w, ih w v, Nat.mul_comm]

end Count

/-! ## Hops -/

/-- A node is this number of hops away: there is a walk with so many steps, and none with fewer. -/
structure Hops (neighbours : Fin n → List (Fin n)) (source node : Fin n) (k : Nat) : Prop where
  walk : walkCount neighbours k source node ≠ 0
  least : ∀ j < k, walkCount neighbours j source node = 0

namespace Hops

variable {neighbours : Fin n → List (Fin n)} {source node : Fin n} {k : Nat}

theorem le (h : Hops neighbours source node k) {j : Nat} (walk : walkCount neighbours j source node ≠ 0) :
    k ≤ j :=
  Nat.le_of_not_lt fun less => walk (h.least j less)

theorem unique (h : Hops neighbours source node k) {j : Nat} (h' : Hops neighbours source node j) :
    k = j :=
  Nat.le_antisymm (h.le h'.walk) (h'.le h.walk)

theorem exists_of_walk {j : Nat} (walk : walkCount neighbours j source node ≠ 0) :
    ∃ k, Hops neighbours source node k := by
  classical
  have connected : ∃ j, walkCount neighbours j source node ≠ 0 := ⟨j, walk⟩
  exact ⟨Nat.find connected, Nat.find_spec connected, fun j less => not_not.1 (Nat.find_min connected less)⟩

theorem self (neighbours : Fin n → List (Fin n)) (source : Fin n) : Hops neighbours source source 0 :=
  ⟨by simp [walkCount], fun _ less => absurd less (Nat.not_lt_zero _)⟩

theorem eq_source (h : Hops neighbours source node 0) : source = node := by
  by_contra other
  exact h.walk (if_neg other)

theorem reverse {back : Fin n → List (Fin n)} (reversed : ∀ u v, (neighbours u).count v = (back v).count u)
    (h : Hops neighbours source node k) : Hops back node source k :=
  ⟨walkCount_reverse reversed k source node ▸ h.walk, fun j less =>
    walkCount_reverse reversed j source node ▸ h.least j less⟩

/-- The last step of a shortest walk comes from a node that is one hop nearer. -/
theorem eq_zero_of_succ (h : Hops neighbours source node (k + 1)) {w : Fin n}
    (other : ¬Hops neighbours source w k) :
    walkCount neighbours k source w * (neighbours w).count node = 0 := by
  by_contra leads
  have step := List.count_pos_iff.1 (Nat.pos_of_ne_zero (Nat.ne_zero_of_mul_ne_zero_right leads))
  have walk := Nat.ne_zero_of_mul_ne_zero_left leads
  obtain ⟨j, hops⟩ := exists_of_walk walk
  have near := h.le (walkCount_add_ne_zero hops.walk (walkCount_one_ne_zero step))
  obtain rfl : j = k := Nat.le_antisymm (hops.le walk) (Nat.le_of_succ_le_succ near)
  exact other hops

end Hops

end NetworkAnalysis.Centrality
