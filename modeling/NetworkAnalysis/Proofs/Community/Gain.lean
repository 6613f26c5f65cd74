import NetworkAnalysis.Proofs.Community.Quality
import NetworkAnalysis.Proofs.Community.Scratch

/-!
# Gains are changes of modularity

What draws a node to a community is the surplus of the node with its other members (`pull`). On a symmetric level
a move changes the modularity by twice the difference of the pulls, and while the totals of the communities are up
to date (`MoveState.Exact`) the gain that is compared when a community is chosen is the pull times the total weight.
A node that moves to its best community therefore raises the modularity by more than twice the slack.
-/

namespace NetworkAnalysis.Community

variable {n : Nat}

namespace Level

/-- The surplus of a node with the other members of a community. -/
def pull (level : Level n Rat) {β : Type} [DecidableEq β] (label : Fin n → β) (node : Fin n) (c : β) : Rat :=
  ∑ v, if v ≠ node ∧ label v = c then level.surplus node v else 0

theorem surplus_symm {level : Level n Rat} (h : level.Symmetric) (u v : Fin n) :
    level.surplus u v = level.surplus v u := by
  rw [surplus, surplus, h.symm u v, mul_comm level.degrees[u]]

/-- A symmetric matrix that is zero off one row and column, and where these meet. -/
theorem sum_cross {matrix : Fin n → Fin n → Rat} {i : Fin n} (symm : ∀ u v, matrix u v = matrix v u)
    (off : ∀ u v, u ≠ i → v ≠ i → matrix u v = 0) (corner : matrix i i = 0) :
    ∑ u, ∑ v, matrix u v = 2 * ∑ v, matrix i v := by
  have row : ∀ u, ∑ v, matrix u v = (if u = i then ∑ v, matrix i v else 0) + matrix i u := by
    intro u
    by_cases here : u = i
    · subst here
      rw [if_pos rfl, corner, add_zero]
    · rw [if_neg here, zero_add, symm i u]
      exact Finset.sum_eq_single i (fun v _ other => off u v here other)
        fun outside => absurd (Finset.mem_univ i) outside
  rw [Finset.sum_congr rfl fun u _ => row u, Finset.sum_add_distrib, Finset.sum_ite_eq',
    if_pos (Finset.mem_univ i), two_mul]

/-- A move changes the modularity by twice the difference of the pulls. -/
theorem quality_move {β : Type} [DecidableEq β] {level : Level n Rat} (h : level.Symmetric)
    (positive : 0 < level.total) {label label' : Fin n → β} {node : Fin n}
    (others : ∀ v, v ≠ node → label' v = label v) :
    level.quality label'
      = level.quality label + 2 * (level.pull label node (label' node) - level.pull label node (label node)) := by
  -- Only pairs with the node change, and each of them is counted from both sides.
  let change : Fin n → Fin n → Rat := fun u v =>
    (if label' u = label' v then level.surplus u v else 0) - if label u = label v then level.surplus u v else 0
  have symm : ∀ u v, change u v = change v u := by
    intro u v
    simp only [change, surplus_symm h u v, eq_comm]
  have off : ∀ u v, u ≠ node → v ≠ node → change u v = 0 := by
    intro u v hu hv
    simp only [change, others u hu, others v hv, sub_self]
  have corner : change node node = 0 := by simp [change]
  have row : ∀ v, change node v
      = (if v ≠ node ∧ label v = label' node then level.surplus node v else 0)
        - if v ≠ node ∧ label v = label node then level.surplus node v else 0 := by
    intro v
    by_cases own : v = node
    · subst own
      simp [corner]
    · simp only [change, others v own, own, ne_eq, not_false_eq_true, true_and, eq_comm]
  have total := sum_cross symm off corner
  simp only [row, Finset.sum_sub_distrib, change] at total
  rw [quality, quality, if_neg (not_le.2 positive), if_neg (not_le.2 positive)]
  unfold pull
  linarith

end Level

/-! ## Totals of communities -/

/-- The totals are the sums of the degrees of the nodes in each community. -/
structure MoveState.Exact (level : Level n Rat) (s : MoveState n Rat) : Prop where
  total : ∀ c : Fin n, s.total[c] = ∑ u : Fin n, if s.community[u] = c then level.degrees[u] else 0

theorem MoveState.exact_singletons (level : Level n Rat) : (singletons level).Exact level := by
  refine ⟨fun c => ?_⟩
  simp [singletons]

/-- A move takes the value of the node from the sum of one community to that of the other. -/
theorem sums_of_move {M : Type} [AddCommMonoid M] [Sub M] (cancel : ∀ a b : M, a + b - b = a)
    {community : Table n (Fin n)} {sums : Table n M} {value : Fin n → M}
    (h : ∀ c : Fin n, sums[c] = ∑ u : Fin n, if community[u] = c then value u else 0) {node target : Fin n}
    (other : target ≠ community[node]) (c : Fin n) :
    let left := sums.set community[node] (sums[community[node]] - value node)
    (left.set target (left[target] + value node))[c]
      = ∑ u : Fin n, if (community.set node target)[u] = c then value u else 0 := by
  have rest : ∀ c : Fin n, ∑ u ∈ Finset.univ.erase node, (if (community.set node target)[u] = c then value u else 0)
      = ∑ u ∈ Finset.univ.erase node, if community[u] = c then value u else 0 := by
    intro c
    refine Finset.sum_congr rfl fun u inside => ?_
    rw [Table.getElem_set_of_ne _ _ (Finset.ne_of_mem_erase inside).symm]
  have before : ∀ c : Fin n, sums[c] = (∑ u ∈ Finset.univ.erase node, if community[u] = c then value u else 0)
      + if community[node] = c then value node else 0 := by
    intro c
    rw [h, Finset.sum_erase_add _ _ (Finset.mem_univ node)]
  rw [← Finset.sum_erase_add _ _ (Finset.mem_univ node), rest, Table.getElem_set_self]
  dsimp only
  rw [Table.getElem_set, Table.getElem_set_of_ne _ _ other.symm]
  by_cases there : target = c
  · have own : community[node] ≠ c := there ▸ other.symm
    rw [if_pos there, if_pos there, there, before, if_neg own, add_zero]
  · rw [if_neg there, if_neg there, add_zero, Table.getElem_set]
    by_cases own : community[node] = c
    · rw [if_pos own, own, before, if_pos own, cancel]
    · rw [if_neg own, before, if_neg own, add_zero]

theorem MoveState.Exact.relocate {level : Level n Rat} {s : MoveState n Rat} (h : s.Exact level)
    {node target : Fin n} (other : target ≠ s.community[node]) :
    (s.relocate node target level.degrees[node]).Exact level :=
  ⟨sums_of_move add_sub_cancel_right h.total other⟩

/-! ## Gains -/

namespace Scratch

/-- The table holds the weight of the entries for each community. -/
theorem weight_collect (community : Table n (Fin n)) (row : List (Fin n × Rat)) (c : Fin n) :
    (fresh.collect community row).weight[c]
      = ∑ v : Fin n, if community[v] = c then Level.weightTo row v else 0 := by
  rw [collect, clean_fresh.clear, Scalar.read_foldl (fun s : Scratch n Rat => s.weight[c])
    (f := fun entry => if community[entry.1] = c then entry.2 else 0),
    Level.sum_entries row fun v : Fin n => community[v] = c]
  · simp [fresh, Scalar.zero_rat]
  · intro s entry
    rw [weight_add]
    by_cases here : community[entry.1] = c
    · subst here
      simp
    · simp [here]

variable {level : Level n Rat} {state : MoveState n Rat} {node : Fin n}

/-- The gain of a community, its total counted without the node, is the pull times the total weight. -/
theorem gain_eq_pull (symmetric : level.Symmetric) (positive : 0 < level.total) (c : Fin n) :
    gain (fresh.collect state.community level.rows[node]).weight[c]
        (∑ v : Fin n, if v ≠ node ∧ state.community[v] = c then level.degrees[v] else 0)
        level.degrees[node] level.total
      = level.total * level.pull (fun u : Fin n => state.community[u]) node c := by
  have nonzero : level.total ≠ 0 := ne_of_gt positive
  have own : Level.weightTo level.rows[node] node = 0 :=
    Level.weightTo_eq_zero (symmetric.loopless node)
  rw [gain, weight_collect, Level.pull, Finset.sum_mul, Finset.sum_div, ← Finset.sum_sub_distrib,
    Finset.mul_sum]
  refine Finset.sum_congr rfl fun v _ => ?_
  by_cases here : v = node
  · subst here
    simp [own]
  · by_cases there : state.community[v] = c
    · simp only [here, there, ne_eq, not_false_eq_true, and_self, if_true, Level.surplus, Level.weight,
        Ne.symm here, if_false, zero_add]
      field_simp
    · simp [there]

theorem gain_own (symmetric : level.Symmetric) (positive : 0 < level.total) (exact : state.Exact level) :
    gain (fresh.collect state.community level.rows[node]).weight[state.community[node]]
        (state.total[state.community[node]] - level.degrees[node]) level.degrees[node] level.total
      = level.total
        * level.pull (fun u : Fin n => state.community[u]) node state.community[node] := by
  rw [← gain_eq_pull symmetric positive, exact.total]
  congr 1
  rw [← Finset.add_sum_erase _ _ (Finset.mem_univ node), if_pos rfl, add_sub_cancel_left,
    ← Finset.add_sum_erase (a := node) _ _ (Finset.mem_univ node), if_neg fun both => both.1 rfl, zero_add]
  refine Finset.sum_congr rfl fun v inside => ?_
  have other : v ≠ node := Finset.ne_of_mem_erase inside
  simp [other]

theorem gain_other (symmetric : level.Symmetric) (positive : 0 < level.total) (exact : state.Exact level)
    {c : Fin n} (other : c ≠ state.community[node]) :
    gain (fresh.collect state.community level.rows[node]).weight[c] state.total[c] level.degrees[node]
        level.total
      = level.total * level.pull (fun u : Fin n => state.community[u]) node c := by
  rw [← gain_eq_pull symmetric positive, exact.total]
  congr 1
  refine Finset.sum_congr rfl fun v _ => ?_
  by_cases here : v = node
  · subst here
    simp [Ne.symm other]
  · simp [here]

/-- What comes out of the comparison is the start, or a candidate with its gain that is better than the start
by more than the slack. -/
theorem foldl_better (s : Scratch n Rat) (total : Table n Rat) (degree whole : Rat) {slack : Rat}
    (nonnegative : 0 ≤ slack) (candidates : List (Fin n)) (start : Fin n × Rat) :
    let best := candidates.foldl (s.better total degree whole slack) start
    best = start ∨ best.1 ∈ candidates ∧ start.2 + slack < best.2
      ∧ best.2 = gain s.weight[best.1] total[best.1] degree whole := by
  induction candidates generalizing start with
  | nil => exact .inl rfl
  | cons candidate rest ih =>
    rw [List.foldl_cons]
    have later := ih (s.better total degree whole slack start candidate)
    by_cases improves : start.2 + slack < gain s.weight[candidate] total[candidate] degree whole
    · have step : s.better total degree whole slack start candidate
          = (candidate, gain s.weight[candidate] total[candidate] degree whole) := if_pos improves
      rw [step] at later ⊢
      rcases later with same | ⟨member, above, value⟩
      · rw [same]
        exact .inr ⟨List.mem_cons_self, improves, rfl⟩
      · refine .inr ⟨List.mem_cons_of_mem _ member, ?_, value⟩
        linarith
    · have step : s.better total degree whole slack start candidate = start := if_neg improves
      rw [step] at later ⊢
      rcases later with same | ⟨member, above, value⟩
      · exact .inl same
      · exact .inr ⟨List.mem_cons_of_mem _ member, above, value⟩

theorem slack_nonneg : (0 : Rat) ≤ Scalar.slack := by
  rw [Scalar.slack_rat]
  norm_num

/-- A community that is chosen over the own one has a larger gain, by more than the slack. -/
theorem choose_improves (s : Scratch n Rat) (nonnegative : 0 ≤ level.total)
    (leaves : s.choose level state node ≠ state.community[node]) :
    gain s.weight[state.community[node]] (state.total[state.community[node]] - level.degrees[node])
        level.degrees[node] level.total + Scalar.slack * level.total
      < gain s.weight[s.choose level state node] state.total[s.choose level state node]
          level.degrees[node] level.total := by
  have compared := s.foldl_better state.total level.degrees[node] level.total
    (mul_nonneg slack_nonneg nonnegative)
    (s.touched.toList.filter fun candidate => candidate ≠ state.community[node])
    (state.community[node], gain s.weight[state.community[node]]
      (state.total[state.community[node]] - level.degrees[node]) level.degrees[node] level.total)
  rcases compared with same | ⟨-, above, value⟩
  · exact absurd (congrArg Prod.fst same) leaves
  · rw [value] at above
    exact above

end Scratch

/-- A node leaves its community only for one that pulls it more strongly, by more than the slack. -/
theorem pull_bestCommunity {level : Level n Rat} (symmetric : level.Symmetric) {state : MoveState n Rat}
    (exact : state.Exact level) {node : Fin n}
    (leaves : bestCommunity level state node ≠ state.community[node]) :
    0 < level.total ∧
      level.pull (fun u : Fin n => state.community[u]) node state.community[node] + Scalar.slack
        < level.pull (fun u : Fin n => state.community[u]) node (bestCommunity level state node) := by
  by_cases empty : level.total ≤ 0
  · exact absurd (bestCommunity_of_empty empty state node) leaves
  · have positive : 0 < level.total := not_le.1 empty
    refine ⟨positive, ?_⟩
    rw [bestCommunity_eq_choose empty] at leaves ⊢
    have improves := Scratch.choose_improves _ positive.le leaves
    rw [Scratch.gain_own symmetric positive exact, Scratch.gain_other symmetric positive exact leaves,
      mul_comm Scalar.slack, ← mul_add] at improves
    exact lt_of_mul_lt_mul_left improves positive.le

end NetworkAnalysis.Community
