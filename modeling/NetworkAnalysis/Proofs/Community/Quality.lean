import NetworkAnalysis.Proofs.Community.Matrix

/-!
# Modularity by pairs of nodes

The modularity of an assignment adds up what each community holds within it. In exact arithmetic this is a sum
over all pairs of nodes that share a community: the weight between them, less what their degrees let expect
(`quality`). In this form only matters which nodes share a community, and a level that has one node for each
class of nodes of another (`Quotient`) gives an assignment the modularity that it has there.
-/

namespace NetworkAnalysis.Community.Level

variable {n m k : Nat} {β : Type} [DecidableEq β]

/-- What two nodes that share a community add to the modularity. -/
def surplus (level : Level n Rat) (u v : Fin n) : Rat :=
  (level.weight u v - level.degrees[u] * level.degrees[v] / level.total) / level.total

/-- The surplus of all pairs of nodes with the same label. A level without weight has none. -/
def quality (level : Level n Rat) (label : Fin n → β) : Rat :=
  if level.total ≤ 0 then 0
  else ∑ u, ∑ v, if label u = label v then level.surplus u v else 0

theorem quality_congr {γ : Type} [DecidableEq γ] (level : Level n Rat) {label : Fin n → β}
    {label' : Fin n → γ} (same : ∀ u v, label u = label v ↔ label' u = label' v) :
    level.quality label = level.quality label' := by
  unfold quality
  simp only [same]

/-! ## What the communities hold -/

/-- The weight between a node and all nodes of its community. -/
def within (level : Level n Rat) (label : Fin n → β) (u : Fin n) : Rat :=
  ∑ v, if label v = label u then level.weight u v else 0

namespace Tally

theorem inside_addInside (t : Tally k Rat) (c d : Fin k) (weight : Rat) :
    (t.addInside c weight).inside[d] = t.inside[d] + if c = d then weight else 0 := by
  rw [addInside, Table.getElem_set]
  by_cases same : c = d
  · subst same
    rw [if_pos rfl, if_pos rfl]
  · rw [if_neg same, if_neg same, add_zero]

variable (level : Level n Rat) (community : Table n (Fin k)) (t : Tally k Rat) (node : Fin n)

theorem inside_addNode (d : Fin k) :
    (t.addNode level community node).inside[d]
      = t.inside[d] + if community[node] = d then level.within (fun u : Fin n => community[u]) node else 0 := by
  have own : ∑ v : Fin n, (if community[v] = community[node] then if node = v then level.selfLoops[node] else 0 else 0)
      = level.selfLoops[node] := by
    rw [Finset.sum_eq_single node]
    · simp
    · intro v _ other
      simp [Ne.symm other]
    · intro outside
      exact absurd (Finset.mem_univ node) outside
  have within : level.within (fun u : Fin n => community[u]) node
      = level.selfLoops[node] + ((level.rows[node]).map fun entry =>
          if community[entry.1] = community[node] then entry.2 else 0).sum := by
    rw [sum_entries level.rows[node] fun v : Fin n => community[v] = community[node], ← own,
      ← Finset.sum_add_distrib, Level.within]
    refine Finset.sum_congr rfl fun v _ => ?_
    by_cases shared : community[v] = community[node] <;> simp [shared, weight]
  have adds : ∀ (t : Tally k Rat) (entry : Fin n × Rat),
      (if community[entry.1] = community[node] then t.addInside community[node] entry.2 else t).inside[d]
        = t.inside[d] + if community[entry.1] = community[node] then
            if community[node] = d then entry.2 else 0 else 0 := by
    intro t entry
    split
    · exact inside_addInside _ _ _ _
    · exact (add_zero _).symm
  rw [addNode, Scalar.read_foldl (fun t : Tally k Rat => t.inside[d]) adds, inside_addInside, within, add_assoc]
  by_cases here : community[node] = d <;> simp [here]

theorem degrees_addNode (d : Fin k) :
    (t.addNode level community node).degrees[d]
      = t.degrees[d] + if community[node] = d then level.degrees[node] else 0 := by
  have keeps : ∀ (t : Tally k Rat) (entry : Fin n × Rat),
      (if community[entry.1] = community[node] then t.addInside community[node] entry.2 else t).degrees[d]
        = t.degrees[d] + 0 := by
    intro t entry
    rw [add_zero]
    split <;> rfl
  rw [addNode, Scalar.read_foldl (fun t : Tally k Rat => t.degrees[d]) keeps, addInside, Table.getElem_set]
  by_cases here : community[node] = d
  · subst here
    simp
  · simp [here]

/-- The tally of all nodes. -/
def ofLevel : Tally k Rat :=
  (List.finRange n).foldl (addNode level community) zero

theorem inside_ofLevel (d : Fin k) :
    (ofLevel level community).inside[d]
      = ∑ u : Fin n, if community[u] = d then level.within (fun u : Fin n => community[u]) u else 0 := by
  rw [ofLevel, Scalar.read_foldl (fun t : Tally k Rat => t.inside[d])
    fun t u => inside_addNode level community t u d, Fin.sum_univ_def]
  simp [zero, Scalar.zero_rat]

theorem degrees_ofLevel (d : Fin k) :
    (ofLevel level community).degrees[d] = ∑ u : Fin n, if community[u] = d then level.degrees[u] else 0 := by
  rw [ofLevel, Scalar.read_foldl (fun t : Tally k Rat => t.degrees[d])
    fun t u => degrees_addNode level community t u d, Fin.sum_univ_def]
  simp [zero, Scalar.zero_rat]

end Tally

/-- A sum over the classes of a labelling is a sum over its members. -/
theorem sum_fibers (place : Fin n → Fin m) (f : Fin n → Fin m → Rat) :
    ∑ c, ∑ u, (if place u = c then f u c else 0) = ∑ u, f u (place u) := by
  rw [Finset.sum_comm]
  simp

/-- What a community contributes is the surplus of the pairs within it. -/
theorem contribution_eq (level : Level n Rat) (community : Table n (Fin k)) (c : Fin k) :
    (Tally.ofLevel level community).contribution level.total c
      = ∑ u : Fin n, if community[u] = c then
          ∑ v : Fin n, if community[v] = community[u] then level.surplus u v else 0 else 0 := by
  have product : (∑ u : Fin n, if community[u] = c then level.degrees[u] else 0)
        * (∑ v : Fin n, if community[v] = c then level.degrees[v] else 0)
      = ∑ u : Fin n, if community[u] = c then
          ∑ v : Fin n, if community[v] = community[u] then level.degrees[u] * level.degrees[v] else 0 else 0 := by
    rw [Finset.sum_mul]
    refine Finset.sum_congr rfl fun u _ => ?_
    by_cases here : community[u] = c
    · simp only [here, if_true, Finset.mul_sum, mul_ite, mul_zero]
    · simp [here]
  rw [Tally.contribution, Tally.inside_ofLevel, Tally.degrees_ofLevel, div_mul_div_comm, product,
    Finset.sum_div, Finset.sum_div, ← Finset.sum_sub_distrib]
  refine Finset.sum_congr rfl fun u _ => ?_
  by_cases here : community[u] = c
  · simp only [here, if_true, Level.within, Finset.sum_div, ← Finset.sum_sub_distrib]
    refine Finset.sum_congr rfl fun v _ => ?_
    by_cases shared : community[v] = c
    · simp only [shared, if_true, surplus]
      ring
    · simp [shared]
  · simp [here]

/-- Modularity is the surplus of all pairs that share a community. -/
theorem modularity_eq_quality (level : Level n Rat) (community : Table n (Fin k)) :
    level.modularity community = level.quality fun u : Fin n => community[u] := by
  unfold modularity quality
  rw [Scalar.zero_rat]
  split
  · rfl
  · rw [Scalar.sum_rat, ← Fin.sum_univ_def]
    show ∑ c, (Tally.ofLevel level community).contribution level.total c = _
    rw [Finset.sum_congr rfl fun c _ => contribution_eq level community c,
      sum_fibers (fun u : Fin n => community[u]) fun u _ =>
        ∑ v : Fin n, if community[v] = community[u] then level.surplus u v else 0]
    refine Finset.sum_congr rfl fun u _ => Finset.sum_congr rfl fun v _ => ?_
    simp only [eq_comm]

/-! ## Quotients -/

/-- The sum of a matrix over the block of two classes. -/
def block (place : Fin n → Fin m) (matrix : Fin n → Fin n → Rat) (c d : Fin m) : Rat :=
  ∑ u, if place u = c then ∑ v, if place v = d then matrix u v else 0 else 0

/-- The coarse level has one node for each class of nodes of the fine one. -/
structure Quotient (fine : Level n Rat) (place : Fin n → Fin m) (coarse : Level m Rat) : Prop where
  exact : coarse.Exact
  weight : ∀ c d : Fin m, coarse.weight c d = block place fine.weight c d

/-- The blocks of one class, weighted by what their other classes say. -/
theorem sum_block (place : Fin n → Fin m) (matrix : Fin n → Fin n → Rat) (factor : Fin m → Fin m → Rat) :
    ∑ c, ∑ d, factor c d * block place matrix c d
      = ∑ u, ∑ v, factor (place u) (place v) * matrix u v := by
  have inner : ∀ (c : Fin m) (u : Fin n),
      ∑ d, factor c d * (if place u = c then ∑ v, if place v = d then matrix u v else 0 else 0)
        = if place u = c then ∑ v, factor c (place v) * matrix u v else 0 := by
    intro c u
    by_cases here : place u = c
    · simp only [here, if_true, Finset.mul_sum, mul_ite, mul_zero]
      exact sum_fibers place fun v d => factor c d * matrix u v
    · simp [here]
  calc ∑ c, ∑ d, factor c d * block place matrix c d
    _ = ∑ c, ∑ u, ∑ d, factor c d
          * (if place u = c then ∑ v, if place v = d then matrix u v else 0 else 0) := by
      refine Finset.sum_congr rfl fun c _ => ?_
      simp only [block, Finset.mul_sum]
      exact Finset.sum_comm
    _ = ∑ c, ∑ u, if place u = c then ∑ v, factor c (place v) * matrix u v else 0 := by
      simp only [inner]
    _ = ∑ u, ∑ v, factor (place u) (place v) * matrix u v :=
      sum_fibers place fun u c => ∑ v, factor c (place v) * matrix u v

theorem block_add (place : Fin n → Fin m) (matrix matrix' : Fin n → Fin n → Rat) (c d : Fin m) :
    block place (fun u v => matrix u v + matrix' u v) c d = block place matrix c d + block place matrix' c d := by
  simp only [block, ← Finset.sum_filter, Finset.sum_add_distrib]

/-- The block of two classes is the block of the transpose of the matrix for the classes in the other order. -/
theorem block_swap (place : Fin n → Fin m) (matrix : Fin n → Fin n → Rat) (c d : Fin m) :
    block place (fun u v => matrix v u) c d = block place matrix d c := by
  simp only [block, ← Finset.sum_filter]
  rw [Finset.sum_comm]

theorem block_symm {place : Fin n → Fin m} {matrix : Fin n → Fin n → Rat}
    (symm : ∀ u v, matrix u v = matrix v u) (c d : Fin m) :
    block place matrix c d = block place matrix d c := by
  rw [← block_swap]
  simp only [symm]

namespace Quotient

variable {fine : Level n Rat} {place : Fin n → Fin m} {coarse : Level m Rat}

theorem refl (exact : fine.Exact) : fine.Quotient id fine := by
  refine ⟨exact, fun c d => ?_⟩
  simp [block]

theorem trans {coarser : Level k Rat} {place' : Fin m → Fin k} (h : fine.Quotient place coarse)
    (h' : coarse.Quotient place' coarser) : fine.Quotient (fun u => place' (place u)) coarser := by
  refine ⟨h'.exact, fun c d => ?_⟩
  have factored : ∀ {l : Nat} (p : Fin l → Fin k) (matrix : Fin l → Fin l → Rat),
      block p matrix c d
        = ∑ u, ∑ v, (if p u = c then if p v = d then 1 else 0 else 0) * matrix u v := by
    intro l p matrix
    refine Finset.sum_congr rfl fun u _ => ?_
    by_cases here : p u = c <;> simp [here]
  rw [h'.weight, factored, factored, ← sum_block place fine.weight fun c' d' =>
    if place' c' = c then if place' d' = d then 1 else 0 else 0]
  simp only [h.weight]

theorem symm (h : fine.Quotient place coarse) (symmetric : fine.Symmetric) (c d : Fin m) :
    coarse.weight c d = coarse.weight d c := by
  rw [h.weight, h.weight]
  exact block_symm symmetric.symm c d

/-- The degree of a coarse node is the sum of the degrees of its members. -/
theorem degree (h : fine.Quotient place coarse) (exact : fine.Exact) (c : Fin m) :
    coarse.degrees[c] = ∑ u : Fin n, if place u = c then fine.degrees[u] else 0 := by
  rw [h.exact.degree]
  simp only [h.weight, block]
  rw [Finset.sum_comm]
  refine Finset.sum_congr rfl fun u _ => ?_
  by_cases here : place u = c
  · simp only [here, if_true, exact.degree u]
    exact sum_fibers place fun v _ => fine.weight u v
  · simp [here]

theorem total (h : fine.Quotient place coarse) (exact : fine.Exact) : coarse.total = fine.total := by
  rw [h.exact.total, exact.total]
  simp only [h.degree exact]
  exact sum_fibers place fun u _ => fine.degrees[u]

theorem surplus (h : fine.Quotient place coarse) (exact : fine.Exact) (c d : Fin m) :
    coarse.surplus c d = block place fine.surplus c d := by
  rw [Level.surplus, h.total exact, h.weight, h.degree exact, h.degree exact, block, block,
    Finset.sum_mul, Finset.sum_div, ← Finset.sum_sub_distrib, Finset.sum_div]
  refine Finset.sum_congr rfl fun u _ => ?_
  by_cases here : place u = c
  · simp only [here, if_true, Finset.mul_sum, Finset.sum_div, ← Finset.sum_sub_distrib]
    refine Finset.sum_congr rfl fun v _ => ?_
    by_cases there : place v = d <;> simp [there, Level.surplus]
  · simp [here]

/-- An assignment of the coarse nodes has the modularity of the assignment that it makes of the fine ones. -/
theorem quality (h : fine.Quotient place coarse) (exact : fine.Exact) (label : Fin m → β) :
    coarse.quality label = fine.quality fun u => label (place u) := by
  have shared : ∀ {l : Nat} (label : Fin l → β) (matrix : Fin l → Fin l → Rat),
      (∑ u, ∑ v, if label u = label v then matrix u v else 0)
        = ∑ u, ∑ v, (if label u = label v then 1 else 0) * matrix u v := by
    intro l label matrix
    simp
  unfold Level.quality
  rw [h.total exact, shared, shared, ← sum_block place fine.surplus fun c d =>
    if label c = label d then 1 else 0]
  simp only [h.surplus exact]

end Quotient

end NetworkAnalysis.Community.Level
