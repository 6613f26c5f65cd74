import NetworkAnalysis.Proofs.Community.Joins
import NetworkAnalysis.Proofs.Community.Quality
import NetworkAnalysis.Proofs.Transpose

/-!
# The graph of the communities

The communities of a graph are the nodes of another one, with a relationship for each relationship of the graph
(`Collapses`). However it is loaded, the level of this graph is a quotient of the level of the graph that it was made
of, and joins only communities with members that are joined there. It keeps parallel relationships apart, where the
coarse levels of a search add them up.
-/

namespace NetworkAnalysis

/-! ## Labels that are numbers -/

namespace IdMap

variable {ids : IdMap} {count : Nat}

theorem size_of_range (numbered : ofList (List.range count) = .ok ids) : ids.size = count := by
  have listed := congrArg List.length (labels_ofList numbered)
  rwa [List.length_range, Array.length_toList] at listed

/-- Where the labels are the first numbers, every node is labelled by its number. -/
theorem label?_of_range (numbered : ofList (List.range count) = .ok ids) {label : Nat} (below : label < count) :
    ids.label? label = some label := by
  rw [label?, ← Array.getElem?_toList, labels_ofList numbered]
  simp [below]

theorem label_of_range (numbered : ofList (List.range count) = .ok ids) (node : Fin ids.size) :
    ids.label node = node.val := by
  have below : node.val < count := node.isLt.trans_eq (size_of_range numbered)
  have labelled := label?_of_range numbered below
  rw [label?, Array.getElem?_eq_getElem node.isLt] at labelled
  exact Option.some.inj labelled

theorem node?_of_range (numbered : ofList (List.range count) = .ok ids) {label : Nat} (below : label < ids.size) :
    ids.node? label = some ⟨label, below⟩ := by
  have here : ids.number? label = some label :=
    number?_eq_some_iff.2 (label?_of_range numbered (below.trans_eq (size_of_range numbered)))
  unfold node?
  split
  · next unknown =>
    rw [here] at unknown
    cases unknown
  · next node found =>
    obtain rfl : label = node := Option.some.inj (here.symm.trans found)
    rfl

end IdMap

namespace Community

/-! ## Sources of communities -/

variable {g : Graph Rat}

/-- The relationships that leave a community: one for each relationship that leaves one of its nodes, for the
community where that one ends, with the weight that it counts. -/
def relationshipsFrom (g : Graph Rat) (weighted : Bool) (assignment : Table g.size Nat) (community : Nat) :
    List (Nat × Option Rat) :=
  (List.finRange g.size).flatMap fun node =>
    if assignment[node] = community then
      (g.relationships node .outgoing).map fun r => (assignment[r.other], some (g.counted weighted r.id))
    else
      []

/-- A source that has a node for each of `count` communities of a graph, in order, and a relationship between
communities for each relationship of the graph, in any order. -/
structure Collapses (g : Graph Rat) (weighted : Bool) (assignment : Table g.size Nat) (count : Nat)
    (source : Source Rat) : Prop where
  nodes : source.nodes = List.range count
  relationships : ∀ community < count,
    (source.relationships community).Perm (relationshipsFrom g weighted assignment community)

/-- The communities of a graph as such a source. -/
def collapsed (g : Graph Rat) (weighted : Bool) (assignment : Table g.size Nat) (count : Nat) : Source Rat where
  declared := count
  nodes := List.range count
  relationships := relationshipsFrom g weighted assignment

theorem collapses_collapsed (g : Graph Rat) (weighted : Bool) (assignment : Table g.size Nat) (count : Nat) :
    Collapses g weighted assignment count (collapsed g weighted assignment count) :=
  ⟨rfl, fun _ _ => .refl _⟩

/-- Between communities there are no more relationships than between nodes. -/
theorem sum_relationshipsFrom_le (g : Graph Rat) (weighted : Bool) (assignment : Table g.size Nat) (count : Nat) :
    ((List.range count).map fun community => (relationshipsFrom g weighted assignment community).length).sum
      ≤ ∑ node : Fin g.size, (g.relationships node .outgoing).length := by
  have leaving : ∀ community, (relationshipsFrom g weighted assignment community).length
      = ∑ node : Fin g.size,
        if assignment[node] = community then (g.relationships node .outgoing).length else 0 := by
    intro community
    rw [relationshipsFrom, List.length_flatMap, ← Fin.sum_univ_def]
    refine Finset.sum_congr rfl fun node _ => ?_
    split
    · exact List.length_map _
    · rfl
  calc ((List.range count).map fun community => (relationshipsFrom g weighted assignment community).length).sum
    _ = ∑ community ∈ Finset.range count, ∑ node : Fin g.size,
          if assignment[node] = community then (g.relationships node .outgoing).length else 0 := by
      simp only [leaving]
      rfl
    _ = ∑ node : Fin g.size, ∑ community ∈ Finset.range count,
          if assignment[node] = community then (g.relationships node .outgoing).length else 0 :=
      Finset.sum_comm
    _ ≤ ∑ node : Fin g.size, (g.relationships node .outgoing).length := by
      refine Finset.sum_le_sum fun node _ => ?_
      rw [Finset.sum_ite_eq]
      split
      · exact Nat.le_refl _
      · exact Nat.zero_le _

/-- The communities of a graph can be loaded into each storage that is not smaller than that of the graph. -/
theorem exists_load_collapsed {storage storage' : Storage} {settings settings' : LoadSettings Rat}
    {source : Source Rat} (loaded : Loading.loadInto storage settings source = .ok g)
    (wider : storage.capacity ≤ storage'.capacity) (valid : settings'.validate = .ok ()) (weighted : Bool)
    (assignment : Table g.size Nat) {count : Nat} (fewer : count ≤ g.size) :
    ∃ h : Graph Rat, Loading.loadInto storage' settings' (collapsed g weighted assignment count) = .ok h := by
  have isLoaded : g.Loaded := ⟨_, _, _, loaded⟩
  obtain ⟨nodes, relationships⟩ := Loading.fits_of_loadInto loaded
  have within : count ≤ storage'.capacity := fewer.trans (nodes.trans wider)
  have leaving : ((List.range count).map fun c => (relationshipsFrom g weighted assignment c).length).sum
      ≤ storage'.capacity := by
    calc ((List.range count).map fun c => (relationshipsFrom g weighted assignment c).length).sum
      _ ≤ ∑ node : Fin g.size, (g.relationships node .outgoing).length := sum_relationshipsFrom_le _ _ _ _
      _ = g.relationshipCount := isLoaded.sum_relationships
      _ ≤ storage'.capacity := relationships.trans wider
  have weights : Loading.Heavy settings' (collapsed g weighted assignment count) := by
    intro _ _ community _ entry listed
    obtain ⟨node, -, listed⟩ := List.mem_flatMap.1 listed
    split at listed
    · obtain ⟨r, -, rfl⟩ := List.mem_map.1 listed
      rfl
    · cases listed
  obtain ⟨h, loaded', -⟩ := Loading.exists_loadInto within valid List.nodup_range
    (List.length_range.trans_le within) weights leaving
  exact ⟨h, loaded'⟩

/-! ## Loaded communities -/

section Collapsed

open NetworkAnalysis.Graph (entries)

variable {weighted : Bool} {assignment : Table g.size Nat} {count : Nat} {source : Source Rat} {storage : Storage}
  {settings : LoadSettings Rat} {h : Graph Rat} {place : Fin g.size → Fin h.size}

theorem Collapses.numbered (collapses : Collapses g weighted assignment count source)
    (stored : Loading.Stored storage settings source h) : IdMap.ofList (List.range count) = .ok h.ids := by
  rw [← collapses.nodes]
  exact stored.ids

/-- What leaves a community leaves one of its nodes, and weighs what that counts. -/
theorem Collapses.perm_entries (collapses : Collapses g weighted assignment count source)
    (stored : Loading.Stored storage settings source h) (weights : settings.weighted = true)
    (places : ∀ u : Fin g.size, (place u).val = assignment[u]) (c : Fin h.size) :
    (entries (h.counted true) (h.relationships c .outgoing)).Perm ((List.finRange g.size).flatMap fun u =>
      if place u = c then
        (g.relationships u .outgoing).map fun r => (place r.other, g.counted weighted r.id)
      else
        []) := by
  have numbered := collapses.numbered stored
  have known : ∀ u : Fin g.size, h.ids.node? assignment[u] = some (place u) := by
    intro u
    rw [← places]
    exact IdMap.node?_of_range numbered (place u).isLt
  have below : c.val < count := c.isLt.trans_eq (IdMap.size_of_range numbered)
  calc entries (h.counted true) (h.relationships c .outgoing)
    _ = (Loading.arrange storage (Loading.links source h.ids c)).map fun link =>
        (link.target, (some (link.value settings)).getD 1) :=
      stored.map_outgoing c fun target weight => (target, weight.getD 1)
    List.Perm _ ((Loading.links source h.ids c).map fun link => (link.target, link.value settings)) :=
      (Loading.perm_arrange storage _).map _
    List.Perm _ (((relationshipsFrom g weighted assignment c).filterMap fun entry =>
          (h.ids.node? entry.1).map fun target => (⟨target, entry.2⟩ : Link h.size Rat)).map
        fun link => (link.target, link.value settings)) := by
      unfold Loading.links
      rw [IdMap.label_of_range numbered]
      exact ((collapses.relationships c below).filterMap _).map _
    _ = _ := by
      rw [relationshipsFrom, List.filterMap_flatMap, List.map_flatMap]
      congr 1
      funext u
      by_cases here : place u = c
      · have here' : assignment[u] = c.val := by rw [← places, here]
        rw [if_pos here, if_pos here', List.filterMap_map, List.map_filterMap, ← List.filterMap_eq_map]
        refine List.filterMap_congr fun r _ => ?_
        simp [known, Link.value, weights]
      · have here' : assignment[u] ≠ c.val := by
          rw [← places]
          exact fun same => here (Fin.ext same)
        rw [if_neg here, if_neg here']
        rfl

/-- The relationships between two communities weigh what those between their nodes count. -/
theorem Collapses.weightTo_eq_block (collapses : Collapses g weighted assignment count source)
    (stored : Loading.Stored storage settings source h) (weights : settings.weighted = true)
    (places : ∀ u : Fin g.size, (place u).val = assignment[u]) (c d : Fin h.size) :
    Level.weightTo (entries (h.counted true) (h.relationships c .outgoing)) d
      = Level.block place (fun u v => Level.weightTo (entries (g.counted weighted) (g.relationships u .outgoing)) v)
          c d := by
  rw [Level.weightTo_perm (collapses.perm_entries stored weights places c), Level.weightTo_flatMap,
    ← Fin.sum_univ_def, Level.block]
  refine Finset.sum_congr rfl fun u _ => ?_
  by_cases here : place u = c
  · rw [if_pos here, if_pos here, ← Level.sum_entries _ fun v => place v = d, Level.weightTo, entries, List.map_map,
      List.map_map]
    rfl
  · rw [if_neg here, if_neg here]
    rfl

/-- The level of the graph of the communities is a quotient. -/
theorem Collapses.quotient (collapses : Collapses g weighted assignment count source)
    (stored : Loading.Stored storage settings source h) (weights : settings.weighted = true)
    (places : ∀ u : Fin g.size, (place u).val = assignment[u]) (loaded : g.Loaded) :
    (Level.ofGraph g weighted).Quotient place (Level.ofGraph h true) := by
  obtain ⟨_, _, _, loaded⟩ := loaded
  have shows := (Loading.stored_of_loadInto loaded).shows
  let leaving : Fin g.size → Fin g.size → Rat := fun u v =>
    Level.weightTo (entries (g.counted weighted) (g.relationships u .outgoing)) v
  have between : (Level.ofGraph g weighted).weight = fun u v => leaving u v + leaving v u := by
    funext u v
    rw [Graph.level_eq, Level.weight_ofNetwork, shows.weightTo_both]
  refine ⟨h.exact_level true, fun c d => ?_⟩
  rw [between, Level.block_add, Level.block_swap place leaving, Graph.level_eq, Level.weight_ofNetwork,
    stored.shows.weightTo_both, collapses.weightTo_eq_block stored weights places,
    collapses.weightTo_eq_block stored weights places]

theorem Collapses.mem_neighbours_iff (collapses : Collapses g weighted assignment count source)
    (stored : Loading.Stored storage settings source h) (weights : settings.weighted = true)
    (places : ∀ u : Fin g.size, (place u).val = assignment[u]) (c d : Fin h.size) :
    d ∈ h.neighbours .outgoing c ↔ ∃ u v, place u = c ∧ place v = d ∧ v ∈ g.neighbours .outgoing u := by
  have ends : h.neighbours .outgoing c = (entries (h.counted true) (h.relationships c .outgoing)).map Prod.fst := by
    rw [entries, List.map_map]
    rfl
  have same := (collapses.perm_entries stored weights places c).map Prod.fst
  rw [ends, same.mem_iff, List.mem_map]
  constructor
  · rintro ⟨entry, member, rfl⟩
    obtain ⟨u, -, inside⟩ := List.mem_flatMap.1 member
    split at inside
    · next here =>
      obtain ⟨r, listed, rfl⟩ := List.mem_map.1 inside
      exact ⟨u, r.other, here, rfl, List.mem_map_of_mem listed⟩
    · cases inside
  · rintro ⟨u, v, here, rfl, neighbour⟩
    obtain ⟨r, listed, rfl⟩ := List.mem_map.1 neighbour
    refine ⟨(place r.other, g.counted weighted r.id), List.mem_flatMap.2 ⟨u, List.mem_finRange u, ?_⟩, rfl⟩
    rw [if_pos here]
    exact List.mem_map_of_mem listed

/-- The graph of the communities joins only communities with members that are joined. -/
theorem Collapses.joins (collapses : Collapses g weighted assignment count source)
    (stored : Loading.Stored storage settings source h) (weights : settings.weighted = true)
    (places : ∀ u : Fin g.size, (place u).val = assignment[u]) (loaded : g.Loaded) (loaded' : h.Loaded)
    {c d : Fin h.size} (joins : (Level.ofGraph h true).Joins c d) :
    ∃ u v, place u = c ∧ place v = d ∧ (Level.ofGraph g weighted).Joins u v := by
  have neighbours := collapses.mem_neighbours_iff stored weights places
  obtain ⟨other, step⟩ := (loaded'.joins_level_iff true).1 joins
  have apart : ∀ {u v : Fin g.size}, place u = c → place v = d → v ≠ u := by
    rintro u v rfl rfl rfl
    exact other rfl
  rcases step with there | back
  · obtain ⟨u, v, here, there, neighbour⟩ := (neighbours c d).1 there
    exact ⟨u, v, here, there, (loaded.joins_level_iff weighted).2 ⟨apart here there, .inl neighbour⟩⟩
  · obtain ⟨v, u, there, here, neighbour⟩ := (neighbours d c).1 back
    exact ⟨u, v, here, there, (loaded.joins_level_iff weighted).2 ⟨apart here there, .inr neighbour⟩⟩

end Collapsed

end Community

end NetworkAnalysis
