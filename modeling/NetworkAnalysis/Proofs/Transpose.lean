import Mathlib
import NetworkAnalysis.Proofs.LoadSuccess

/-!
# The incoming side is the transpose of the outgoing side

All arcs of the rows, listed source after source, have the ids `0, 1, …` in order. The outgoing lists cut this
list into parts by source and the incoming lists sort it into parts by target, so that each of them holds every
arc once. Within a part by target the arcs stay in order, which is the order of sources and then of ids.
-/

namespace NetworkAnalysis

namespace Adjacency

variable {n : Nat}

/-! ## The arcs in order -/

theorem map_id_leaving (rows : Table n (List (Fin n))) (node : Fin n) :
    (leaving rows node).map Relationship.id
      = List.range' (before rows node) rows[node].length := by
  refine List.ext_getElem? fun k => ?_
  rw [List.getElem?_map, getElem?_leaving]
  rcases Nat.lt_or_ge k rows[node].length with inside | outside
  · rw [List.getElem?_eq_getElem inside, List.getElem?_range' inside]
    simp
  · rw [List.getElem?_eq_none outside, List.getElem?_eq_none (by simpa using outside)]
    rfl

/-- The ids are the places in the list of all arcs. -/
theorem map_id_arcs (rows : Table n (List (Fin n))) :
    (arcs rows).map Arc.id = List.range (arcs rows).length := by
  have firstRows : ∀ k ≤ n, (((List.finRange n).take k).flatMap fun source =>
      (leaving rows source).map Relationship.id) = List.range (before rows k) := by
    intro k
    induction k with
    | zero =>
      intro _
      simp [before_zero]
    | succ k ih =>
      intro bound
      have inside : k < (List.finRange n).length := by
        rw [List.length_finRange]
        exact bound
      have next := before_add_one rows ⟨k, bound⟩
      have joined := List.range'_append_1 (s := 0) (m := before rows k) (n := rows[(⟨k, bound⟩ : Fin n)].length)
      rw [Nat.zero_add] at joined
      rw [List.take_succ_eq_append_getElem inside, List.flatMap_append, ih (Nat.le_of_succ_le bound),
        List.getElem_finRange, List.flatMap_singleton, map_id_leaving, next, List.range_eq_range',
        List.range_eq_range']
      exact joined
  have all := firstRows n (Nat.le_refl n)
  rw [List.take_of_length_le (by simp)] at all
  rw [length_arcs, ← all, arcs, arcsFrom, List.map_flatMap]
  congr 1
  funext source
  rw [List.map_map]
  rfl

/-- Of two arcs the earlier one has the smaller source, or the same source and the smaller id. -/
theorem pairwise_arcs (rows : Table n (List (Fin n))) :
    (arcs rows).Pairwise fun a b => a.source < b.source ∨ a.source = b.source ∧ a.id < b.id := by
  have sources : (arcs rows).Pairwise fun a b => a.source ≤ b.source :=
    Packed.pairwise_source_arcsFrom (leaving rows)
  have ids : (arcs rows).Pairwise fun a b => a.id < b.id := by
    rw [← List.pairwise_map (f := Arc.id) (R := (· < ·)), map_id_arcs]
    exact List.pairwise_lt_range
  refine (sources.and ids).imp ?_
  rintro a b ⟨source, id⟩
  rcases lt_or_eq_of_le source with less | same
  · exact .inl less
  · exact .inr ⟨same, id⟩

/-! ## The two sides -/

/-- What is in one part only is counted there. -/
theorem count_flatMap_finRange {β : Type} [DecidableEq β] {part : Fin n → List β} {x : β} {u : Fin n}
    (others : ∀ v, v ≠ u → x ∉ part v) :
    ((List.finRange n).flatMap part).count x = (part u).count x := by
  rw [List.count_flatMap, ← Fin.sum_univ_def]
  refine Finset.sum_eq_single u ?_ fun outside => absurd (Finset.mem_univ u) outside
  intro v _ other
  exact List.count_eq_zero.2 (others v other)

theorem count_leaving (rows : Table n (List (Fin n))) (u v : Fin n) (id : Nat) :
    (leaving rows u).count ⟨v, id⟩ = (arcs rows).count ⟨u, v, id⟩ := by
  have injective : Function.Injective (Relationship.arcFrom u) := by
    rintro ⟨other, id⟩ ⟨other', id'⟩ equal
    simpa [Relationship.arcFrom] using equal
  have others : ∀ source : Fin n, source ≠ u →
      (⟨u, v, id⟩ : Arc n) ∉ (leaving rows source).map (Relationship.arcFrom source) := by
    intro source other member
    obtain ⟨r, -, equal⟩ := List.mem_map.1 member
    exact other (congrArg Arc.source equal)
  rw [arcs, arcsFrom, count_flatMap_finRange others]
  exact (List.count_map_of_injective _ _ injective ⟨v, id⟩).symm

theorem count_arriving (rows : Table n (List (Fin n))) (u v : Fin n) (id : Nat) :
    (arriving rows v).count ⟨u, id⟩ = (arcs rows).count ⟨u, v, id⟩ := by
  rw [arriving, entering, List.count, List.countP_map, List.countP_filter, List.count]
  refine List.countP_congr fun arc _ => ?_
  obtain ⟨source, target, id'⟩ := arc
  simp only [Arc.reversed, Fin.ext_iff, beq_iff_eq, Relationship.mk.injEq, Arc.mk.injEq,
    Bool.and_eq_true, decide_eq_true_eq, Function.comp_apply]
  tauto

/-- Sorting into parts by target keeps all arcs. -/
theorem perm_entering (list : List (Arc n)) :
    ((List.finRange n).flatMap fun node => entering list node.val).Perm list := by
  rw [List.perm_iff_count]
  intro arc
  have others : ∀ node : Fin n, node ≠ arc.target → arc ∉ entering list node.val := by
    intro node other member
    have here : arc.target.val = node.val := by simpa [entering] using (List.mem_filter.1 member).2
    exact other (Fin.ext here.symm)
  rw [count_flatMap_finRange others, entering]
  exact List.count_filter (by simp)

/-- What enters the nodes are all arcs. -/
theorem map_id_arriving (rows : Table n (List (Fin n))) :
    ((List.finRange n).flatMap fun node => (arriving rows node).map Relationship.id).Perm
      (List.range (arcs rows).length) := by
  rw [← map_id_arcs]
  refine List.Perm.trans (List.Perm.of_eq ?_) ((perm_entering (arcs rows)).map Arc.id)
  rw [List.map_flatMap]
  congr 1
  funext node
  rw [arriving, List.map_map]
  rfl

end Adjacency

/-! ## Loaded graphs -/

namespace Graph

variable {α : Type}

/-- The ids that the lists of all nodes show in a direction. -/
def listedIds (g : Graph α) (direction : Direction) : List Nat :=
  (List.finRange g.size).flatMap fun node => (g.relationships node direction).map Relationship.id

/-- The sum of the degrees of all nodes in a direction. -/
def degreeSum (g : Graph α) (direction : Direction) : Nat :=
  ((List.finRange g.size).map fun node => g.degree node direction).sum

/-- The incoming lists of a graph are the transpose of its outgoing lists. -/
structure Transposed (g : Graph α) : Prop where
  /-- A relationship is listed where it starts exactly if it is listed where it ends. -/
  reversed : ∀ (u v : Fin g.size) (id : Nat),
    (g.relationships u .outgoing).count ⟨v, id⟩ = 1 ↔ (g.relationships v .incoming).count ⟨u, id⟩ = 1
  /-- The outgoing lists show every id once. -/
  outgoingIds : ∀ id : Nat,
    (g.listedIds .outgoing).count id = if id < g.relationshipCount then 1 else 0
  /-- The incoming lists show every id once. -/
  incomingIds : ∀ id : Nat,
    (g.listedIds .incoming).count id = if id < g.relationshipCount then 1 else 0
  /-- Incoming lists are ordered by source and then by id. -/
  ordered : ∀ v : Fin g.size, (g.relationships v .incoming).Pairwise fun a b =>
    a.other < b.other ∨ a.other = b.other ∧ a.id < b.id
  /-- Degrees count what is listed. -/
  degree : ∀ (node : Fin g.size) (direction : Direction),
    g.degree node direction = (g.relationships node direction).length
  /-- Both directions together list what leaves and then what enters. -/
  both : ∀ node : Fin g.size,
    g.relationships node .both = g.relationships node .outgoing ++ g.relationships node .incoming
  /-- The degrees count every relationship once at its start. -/
  outDegrees : g.degreeSum .outgoing = g.relationshipCount
  /-- The degrees count every relationship once at its end. -/
  inDegrees : g.degreeSum .incoming = g.relationshipCount

open Adjacency

namespace Shows

variable {g : Graph α} {rows : Table g.size (List (Fin g.size))}

theorem listedIds_outgoing (h : g.Shows rows) :
    g.listedIds .outgoing = List.range g.relationshipCount := by
  rw [h.relationshipCount, ← map_id_arcs, listedIds, arcs, arcsFrom, List.map_flatMap]
  congr 1
  funext node
  rw [h.relationships_outgoing, List.map_map]
  rfl

theorem listedIds_incoming (h : g.Shows rows) :
    (g.listedIds .incoming).Perm (List.range g.relationshipCount) := by
  rw [h.relationshipCount, listedIds]
  simp only [h.relationships_incoming]
  exact map_id_arriving rows

/-- The degrees add up to the number of ids listed. -/
theorem degreeSum_eq (h : g.Shows rows) (direction : Direction) :
    g.degreeSum direction = (g.listedIds direction).length := by
  rw [degreeSum, listedIds, List.length_flatMap]
  refine congrArg List.sum (List.map_congr_left fun node _ => ?_)
  rw [h.degree_eq_length, List.length_map]

end Shows

theorem Loaded.sum_relationships [Scalar α] {g : Graph α} (loaded : g.Loaded) :
    ∑ node : Fin g.size, (g.relationships node .outgoing).length = g.relationshipCount := by
  obtain ⟨storage, settings, source, loaded⟩ := loaded
  have listed := congrArg List.length (Loading.stored_of_loadInto loaded).shows.listedIds_outgoing
  rw [List.length_range, listedIds, List.length_flatMap, ← Fin.sum_univ_def] at listed
  simpa only [List.length_map] using listed

/-- Whatever storage a graph was loaded into, its incoming lists are the transpose of its outgoing lists. -/
theorem transposed_of_loaded [Scalar α] {g : Graph α} (loaded : g.Loaded) : g.Transposed := by
  obtain ⟨storage, settings, source, loaded⟩ := loaded
  have shows := (Loading.stored_of_loadInto loaded).shows
  have outgoing := shows.listedIds_outgoing
  have incoming := shows.listedIds_incoming
  constructor
  case reversed =>
    intro u v id
    rw [shows.relationships_outgoing, shows.relationships_incoming, count_leaving, count_arriving]
  case outgoingIds =>
    intro id
    rw [outgoing, List.count_range]
  case incomingIds =>
    intro id
    rw [incoming.count_eq, List.count_range]
  case ordered =>
    intro v
    rw [shows.relationships_incoming, arriving, List.pairwise_map]
    exact (pairwise_arcs _).filter _
  case degree => exact shows.degree_eq_length
  case both => exact shows.relationships_both
  case outDegrees =>
    rw [shows.degreeSum_eq, outgoing, List.length_range]
  case inDegrees =>
    rw [shows.degreeSum_eq, incoming.length_eq, List.length_range]

/-- The junctions have parallel relationships and a self-loop, and load into both storages. -/
theorem transposed_junctions : ∃ flat packed : Graph Rat,
    Loading.loadInto .dense Loading.fiveByDefault Loading.junctions = .ok flat
      ∧ Loading.loadInto .huge Loading.fiveByDefault Loading.junctions = .ok packed
      ∧ flat.Loaded ∧ packed.Loaded ∧ flat.Transposed ∧ packed.Transposed := by
  obtain ⟨flat, dense, -⟩ := Loading.exists_load_junctions .dense
  obtain ⟨packed, huge, -⟩ := Loading.exists_load_junctions .huge
  have flatLoaded : flat.Loaded := ⟨_, _, _, dense⟩
  have packedLoaded : packed.Loaded := ⟨_, _, _, huge⟩
  exact ⟨flat, packed, dense, huge, flatLoaded, packedLoaded, transposed_of_loaded flatLoaded,
    transposed_of_loaded packedLoaded⟩

end Graph

end NetworkAnalysis
