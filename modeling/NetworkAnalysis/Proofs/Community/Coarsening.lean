import NetworkAnalysis.Proofs.Community.Joins
import NetworkAnalysis.Proofs.Community.Quality

/-!
# Coarsening makes a quotient

Each entry of a node goes into the bundle of its community, as weight within it or as an entry for another one,
so that the bundles hold the blocks of the matrix. Sorting the entries and adding up those for the same community
keeps the weight for each of them. A coarse level is therefore a quotient of the finer one, symmetric if that one is,
and any communities of its nodes have the modularity of the communities that they are of the finer nodes. All levels
that are made of one graph in this way (`MadeOf`) have its total.
-/

namespace NetworkAnalysis.Community.Level

variable {n k : Nat}

/-! ## Merged rows -/

theorem weightTo_mergeRuns (entries : List (Fin k × Rat)) (d : Fin k) :
    weightTo (mergeRuns entries) d = weightTo entries d := by
  fun_induction mergeRuns entries with
  | case1 => rfl
  | case2 entry => rfl
  | case3 weight target next rest ih =>
    rw [ih]
    by_cases here : target = d <;> simp [here, add_assoc]
  | case4 d' weight e next rest other ih =>
    rw [weightTo_cons, weightTo_cons, ih]

theorem weightTo_mergeRow (entries : List (Fin k × Rat)) (d : Fin k) :
    weightTo (mergeRow entries) d = weightTo entries d := by
  rw [mergeRow, weightTo_mergeRuns]
  exact weightTo_perm (Sorting.perm_introsort _ entries) d

/-! ## Bundles -/

namespace Bundle

/-- The weight that a bundle holds between two communities. -/
def weight (b : Bundle k Rat) (c d : Fin k) : Rat :=
  (if c = d then b.inside[c] else 0) + weightTo b.outside[c] d

theorem weight_addInside (b : Bundle k Rat) (e c d : Fin k) (added : Rat) :
    (b.addInside e added).weight c d = b.weight c d + if e = c then if c = d then added else 0 else 0 := by
  simp only [weight, addInside, Table.getElem_set]
  by_cases here : e = c
  · subst here
    by_cases own : e = d <;> simp [own, add_right_comm]
  · simp [here]

theorem weight_addOutside (b : Bundle k Rat) (e f c d : Fin k) (added : Rat) :
    (b.addOutside e f added).weight c d
      = b.weight c d + if e = c then if f = d then added else 0 else 0 := by
  simp only [weight, addOutside, Table.getElem_set]
  by_cases here : e = c
  · subst here
    rw [if_pos rfl, if_pos rfl, weightTo_cons]
    ring
  · simp [here]

variable (community : Table n (Fin k))

/-- An entry adds its weight between its two communities, whichever way it is kept. -/
theorem weight_addEntry (b : Bundle k Rat) (e c d : Fin k) (entry : Fin n × Rat) :
    (b.addEntry community e entry).weight c d
      = b.weight c d + if e = c then if community[entry.1] = d then entry.2 else 0 else 0 := by
  rw [addEntry]
  split
  · next own =>
    rw [weight_addInside, own]
    by_cases here : e = c
    · subst here
      rfl
    · rw [if_neg here, if_neg here]
  · exact weight_addOutside _ _ _ _ _ _

theorem weight_addNode (level : Level n Rat) (b : Bundle k Rat) (node : Fin n) (c d : Fin k) :
    (b.addNode level community node).weight c d
      = b.weight c d + if community[node] = c then
          ∑ v : Fin n, if community[v] = d then level.weight node v else 0 else 0 := by
  have row : (∑ v : Fin n, if community[v] = d then level.weight node v else 0)
      = (if community[node] = d then level.selfLoops[node] else 0)
        + ((level.rows[node]).map fun entry => if community[entry.1] = d then entry.2 else 0).sum := by
    rw [sum_entries level.rows[node] fun v : Fin n => community[v] = d]
    have split : ∀ v : Fin n, (if community[v] = d then level.weight node v else 0)
        = (if node = v then if community[v] = d then level.selfLoops[node] else 0 else 0)
          + if community[v] = d then weightTo level.rows[node] v else 0 := by
      intro v
      by_cases there : community[v] = d <;> simp [there, Level.weight]
    rw [Finset.sum_congr rfl fun v _ => split v, Finset.sum_add_distrib, Finset.sum_ite_eq,
      if_pos (Finset.mem_univ node)]
  rw [addNode, Scalar.read_foldl (fun b : Bundle k Rat => b.weight c d)
    fun b entry => weight_addEntry community b community[node] c d entry, weight_addInside, row, add_assoc]
  by_cases here : community[node] = c
  · subst here
    simp
  · simp [here]

/-- The bundle of all nodes. -/
def ofLevel (level : Level n Rat) : Bundle k Rat :=
  (List.finRange n).foldl (addNode level community) empty

/-- The bundles hold the blocks of the matrix. -/
theorem weight_ofLevel (level : Level n Rat) (c d : Fin k) :
    (ofLevel community level).weight c d = block (fun u => community[u]) level.weight c d := by
  rw [ofLevel, Scalar.read_foldl (fun b : Bundle k Rat => b.weight c d)
    fun b node => weight_addNode community level b node c d, ← Fin.sum_univ_def, block]
  simp [weight, empty, Scalar.zero_rat]

end Bundle

/-! ## Coarse levels -/

variable (level : Level n Rat) (community : Table n (Fin k))

theorem quotient_coarsen :
    level.Quotient (fun u => community[u]) (level.coarsen community) := by
  refine ⟨exact_ofRows _, fun c d => ?_⟩
  rw [← Bundle.weight_ofLevel]
  simp only [weight, coarsen, ofRows, Table.getElem_map, Table.getElem_ofFn]
  rw [weightTo_mergeRow, weightTo_perm (List.reverse_perm _)]
  rfl

/-- A coarse level of a symmetric one is symmetric. -/
theorem Symmetric.coarsen {level : Level n Rat} (h : level.Symmetric) (community : Table n (Fin k)) :
    (level.coarsen community).Symmetric :=
  ⟨loopless_coarsen level community, (quotient_coarsen level community).symm h⟩

/-- Of whatever rows a level is made, a coarse level has its total, its nodes have the degrees of their members, and an
assignment of its nodes has the modularity of the assignment that takes each member to where its community goes. The
level need not be symmetric, communities may be empty, and nodes may share a label. -/
theorem coarsen_preserves {l : Nat} (rows : Table n (List (Fin n × Rat) × Rat)) (community : Table n (Fin k))
    (label : Table k (Fin l)) :
    let level := ofRows rows
    let coarse := level.coarsen community
    coarse.total = level.total
      ∧ (∀ c : Fin k, coarse.degrees[c] = ∑ u : Fin n, if community[u] = c then level.degrees[u] else 0)
      ∧ coarse.modularity label = level.modularity (community.map fun c => label[c]) := by
  have exact := exact_ofRows rows
  have quotient := quotient_coarsen (ofRows rows) community
  refine ⟨quotient.total exact, quotient.degree exact, ?_⟩
  rw [modularity_eq_quality, modularity_eq_quality, quotient.quality exact]
  simp only [Table.getElem_map]

end NetworkAnalysis.Community.Level

/-! ## All levels of a graph -/

namespace NetworkAnalysis.Community

open Level

variable {n : Nat}

/-- The levels that can be made of a graph: its own one, and any level of it after its nodes were put together by
communities, which may be numbered in any way. -/
inductive MadeOf (g : Graph Rat) (weighted : Bool) : {n : Nat} → Level n Rat → Prop
  /-- The level of the graph. -/
  | base : MadeOf g weighted (.ofGraph g weighted)
  /-- A coarser level. -/
  | coarsen {n k : Nat} {level : Level n Rat} (finer : MadeOf g weighted level) (community : Table n (Fin k)) :
    MadeOf g weighted (level.coarsen community)

variable {g : Graph Rat} {weighted : Bool} {level : Level n Rat}

theorem MadeOf.exact (made : MadeOf g weighted level) : level.Exact := by
  cases made with
  | base => exact g.exact_level weighted
  | coarsen _ community => exact (quotient_coarsen _ community).exact

theorem MadeOf.symmetric (loaded : g.Loaded) (made : MadeOf g weighted level) : level.Symmetric := by
  induction made with
  | base => exact loaded.symmetric_level weighted
  | coarsen finer community ih => exact ih.coarsen community

theorem MadeOf.total (made : MadeOf g weighted level) : level.total = (ofGraph g weighted).total := by
  induction made with
  | base => rfl
  | coarsen finer community ih => exact ((quotient_coarsen _ community).total finer.exact).trans ih

end NetworkAnalysis.Community
