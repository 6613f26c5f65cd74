import NetworkAnalysis.Proofs.Community.Coarsening
import NetworkAnalysis.Proofs.Community.Pairs
import NetworkAnalysis.Proofs.SortingOrdered
import NetworkAnalysis.Proofs.Transpose

/-!
# Levels are well formed

A gain is computed from one row, on the understanding that the rows of all other nodes say the same. This holds at the
level of a loaded graph, where both ends of a relationship look up one weight, and at every level that is made of it
(`MadeOf`): the bundles are blocks of a symmetric matrix, and sorting and merging keep their weights. Merging also
leaves one entry for each neighbour, in ascending order, because sorting has put entries for the same one next to each
other.
-/

namespace NetworkAnalysis

open Community Community.Level

variable {n k : Nat}

/-! ## Merged rows -/

namespace Community.Level

section Merge

variable {α : Type} [Scalar α]

theorem pairwise_mergeRuns {entries : List (Fin k × α)} (ascending : entries.Pairwise fun a b => a.1 ≤ b.1) :
    (mergeRuns entries).Pairwise fun a b => a.1 < b.1 := by
  fun_induction mergeRuns entries with
  | case1 => exact .nil
  | case2 entry => exact List.pairwise_singleton _ entry
  | case3 weight target next rest ih =>
    obtain ⟨-, ascending⟩ := List.pairwise_cons.1 ascending
    exact ih (List.pairwise_cons.2 (List.pairwise_cons.1 ascending))
  | case4 d weight e next rest other ih =>
    obtain ⟨least, ascending⟩ := List.pairwise_cons.1 ascending
    refine List.pairwise_cons.2 ⟨fun merged member => ?_, ih ascending⟩
    obtain ⟨original, inside, same⟩ := exists_of_mem_mergeRuns member
    have first : d < e := lt_of_le_of_ne (least _ List.mem_cons_self) other
    rw [← same]
    rcases List.mem_cons.1 inside with rfl | later
    · exact first
    · exact lt_of_lt_of_le first ((List.pairwise_cons.1 ascending).1 original later)

/-- A merged row lists each node at most once, in ascending order. -/
theorem pairwise_mergeRow (entries : List (Fin k × α)) : (mergeRow entries).Pairwise fun a b => a.1 < b.1 := by
  refine pairwise_mergeRuns ((Sorting.pairwise_introsort (.ofKey Prod.fst) entries).imp fun ordered => ?_)
  exact not_lt.1 (of_decide_eq_false ordered)

theorem pairwise_coarsen (level : Level n α) (community : Table n (Fin k)) (c : Fin k) :
    ((level.coarsen community).rows[c]).Pairwise fun a b => a.1 < b.1 := by
  simp only [coarsen, ofRows, Table.getElem_map, Table.getElem_ofFn]
  exact pairwise_mergeRow _

end Merge

/-! ## One level -/

/-- What the search relies on at a level. -/
structure WellFormed (level : Level n Rat) : Prop where
  /-- Rows have entries for nodes of the level, and none for their own. -/
  targets : ∀ u : Fin n, ∀ entry ∈ level.rows[u], entry.1.val < n ∧ entry.1 ≠ u
  /-- A node has the same weight for another one as that one has for it. -/
  symm : ∀ u v : Fin n, weightTo level.rows[u] v = weightTo level.rows[v] u
  /-- A degree is the weight of the self-loops and of the row. -/
  degree : ∀ u : Fin n, level.degrees[u] = level.selfLoops[u] + (level.rows[u].map Prod.snd).sum
  /-- The total is the sum of the degrees. -/
  total : level.total = ∑ u : Fin n, level.degrees[u]

theorem Symmetric.wellFormed {level : Level n Rat} (symmetric : level.Symmetric) (exact : level.Exact) :
    level.WellFormed where
  targets := fun u entry member => ⟨entry.1.isLt, symmetric.loopless u entry member⟩
  symm := by
    intro u v
    by_cases same : u = v
    · rw [same]
    · have weights := symmetric.symm u v
      rwa [weight, weight, if_neg same, if_neg (Ne.symm same), zero_add, zero_add] at weights
  degree := fun u => (exact.degree u).trans (sum_weight level u)
  total := exact.total

end Community.Level

/-! ## The weight of a graph -/

namespace Graph

variable {g : Graph Rat}

/-- Relationships weigh at both of their ends, and self-loops twice at theirs. -/
theorem mass_eq (shown : ∃ rows, g.Shows rows) (weighted : Bool) :
    g.mass weighted = 2 * ((List.range g.relationshipCount).map (g.counted weighted)).sum := by
  obtain ⟨rows, shows⟩ := shown
  have leaving : ∀ u : Fin g.size, ∑ v, g.between weighted u v
      = (((g.relationships u .outgoing).map Relationship.id).map (g.counted weighted)).sum := by
    intro u
    simp only [← weightTo_outgoing]
    rw [← sum_weights, entries, List.map_map, List.map_map]
    rfl
  have all : ∑ u, ∑ v, g.between weighted u v = ((List.range g.relationshipCount).map (g.counted weighted)).sum := by
    rw [← shows.listedIds_outgoing, listedIds, List.map_flatMap, List.flatMap_def, List.sum_flatten, List.map_map,
      Fin.sum_univ_def]
    exact congrArg List.sum (List.map_congr_left fun u _ => leaving u)
  unfold mass strength
  simp only [joint_eq, Finset.sum_add_distrib]
  rw [Finset.sum_comm (f := fun u v => g.between weighted v u), all, two_mul]

end Graph

/-! ## All levels -/

namespace Community

variable {g : Graph Rat} {weighted : Bool} {level : Level n Rat}

/-- Every level that can be made of a loaded graph is well formed: its rows stay within the level and leave out their
own nodes, entries weigh the same in both directions, degrees are the weights of self-loops and rows, and the total is
the sum of the degrees. It stays twice the weight of all relationships, self-loops among them. Each row of the next
level, whatever its communities, lists other nodes at most once, in ascending order. -/
theorem levels_wellFormed (loaded : g.Loaded) (made : MadeOf g weighted level) :
    level.WellFormed
      ∧ level.total = 2 * ((List.range g.relationshipCount).map (g.counted weighted)).sum
      ∧ ∀ (k : Nat) (community : Table n (Fin k)) (c : Fin k),
          (((level.coarsen community).rows[c]).map Prod.fst).Pairwise (· < ·) := by
  refine ⟨(made.symmetric loaded).wellFormed made.exact, ?_, fun k community c => ?_⟩
  · obtain ⟨storage, settings, source, loaded⟩ := loaded
    have shown := (Loading.stored_of_loadInto loaded).shows
    rw [made.total, Graph.total_level ⟨_, shown⟩, Graph.mass_eq ⟨_, shown⟩]
  · exact List.pairwise_map.2 (pairwise_coarsen level community c)

/-- A sequential pass leads to a coarse level of the junctions, and another one on from there. -/
theorem levels_wellFormed_junctions : ∃ g : Graph Rat,
    Loading.loadInto .huge Loading.fiveByDefault Loading.junctions = .ok g ∧ g.Loaded
      ∧ let base := ofGraph g true
        let coarse := base.coarsen (renumber (sequentialPass base (.singletons base)).1.community).community
        let next := renumber (sequentialPass coarse (.singletons coarse)).1.community
        MadeOf g true coarse ∧ coarse.WellFormed
          ∧ coarse.total = 2 * ((List.range g.relationshipCount).map (g.counted true)).sum
          ∧ ∀ c : Fin next.count, (((coarse.coarsen next.community).rows[c]).map Prod.fst).Pairwise (· < ·) := by
  obtain ⟨g, loaded, -⟩ := Loading.exists_load_junctions .huge
  have isLoaded : g.Loaded := ⟨_, _, _, loaded⟩
  have made := MadeOf.coarsen (.base : MadeOf g true (ofGraph g true))
    (renumber (sequentialPass (ofGraph g true) (.singletons (ofGraph g true))).1.community).community
  obtain ⟨wellFormed, total, ascending⟩ := levels_wellFormed isLoaded made
  exact ⟨g, loaded, isLoaded, made, wellFormed, total, ascending _ _⟩

end Community

end NetworkAnalysis
