import Mathlib
import NetworkAnalysis.Loading
import NetworkAnalysis.Proofs.Relationships

/-!
# What a load puts into a graph

A load that succeeds builds a graph from the links of each node, arranged as the storage wants them. The
graph shows these links, each with the weight that the settings give it (`Link.value`): `ends` lists the
relationships of a node by their far ends and weights.
-/

namespace NetworkAnalysis

variable {α : Type} [Scalar α]

/-- The weight that a link has after a load: its own one, else the default; one in a load without
weights. -/
def Link.value {n : Nat} (settings : LoadSettings α) (link : Link n α) : α :=
  if settings.weighted then (link.weight.or settings.defaultWeight).getD Scalar.zero else Scalar.one

namespace Loading

/-! ## Weights -/

theorem get?_weightTable (storage : Storage) (weights : List α) (id : Nat) :
    (weightTable storage weights).get? id = weights[id]? := by
  cases storage with
  | dense => simp [weightTable, Weights.get?]
  | huge =>
    simp only [weightTable, Weights.get?]
    rw [Paged.get?_eq_getElem?_toList (Paged.wellFormed_ofList weights), Paged.toList_ofList]

/-- Every relationship has the weight of its link, in whatever form the weights are kept. -/
theorem get?_weightsOf {n : Nat} (settings : LoadSettings α) (storage : Storage)
    {links : List (Link n α)} {id : Nat} {link : Link n α} (found : links[id]? = some link) :
    (weightsOf settings storage links).get? id = some (link.value settings) := by
  unfold weightsOf Link.value
  by_cases weighted : settings.weighted
  · rw [if_pos weighted, if_pos weighted]
    split
    · next weight default bare =>
      have own : link.weight = none := by
        rw [List.any_eq_false] at bare
        simpa using bare link (List.mem_of_getElem? found)
      rw [own, default]
      rfl
    · rw [get?_weightTable, List.getElem?_map, found]
      rfl
  · rw [if_neg weighted, if_neg weighted]
    rfl

theorem present_weightsOf {n : Nat} (settings : LoadSettings α) (storage : Storage)
    (links : List (Link n α)) : (weightsOf settings storage links).present = settings.weighted := by
  unfold weightsOf
  by_cases weighted : settings.weighted
  · rw [if_pos weighted, weighted]
    split
    · rfl
    · cases storage <;> rfl
  · rw [if_neg weighted]
    simp only [Bool.not_eq_true] at weighted
    rw [weighted]
    rfl

/-! ## Rows -/

omit [Scalar α] in
/-- Sorting the places of a row by their targets is sorting the row by its targets. -/
theorem arrange_huge {n : Nat} (row : List (Link n α)) :
    arrange .huge row = row.mergeSort fun a b => a.target ≤ b.target := by
  unfold arrange inTargetOrder targetOrder
  simp only
  rw [List.map_mergeSort (s := fun a b : Link n α => a.target ≤ b.target) fun _ _ _ _ => rfl]
  congr 1
  refine List.ext_getElem (by simp) fun k bound _ => ?_
  simp

omit [Scalar α] in
theorem perm_arrange {n : Nat} (storage : Storage) (row : List (Link n α)) :
    (arrange storage row).Perm row := by
  cases storage with
  | dense => exact .rfl
  | huge =>
    rw [arrange_huge]
    exact List.mergeSort_perm _ _

omit [Scalar α] in
theorem ascending_arrange_huge {n : Nat} (row : List (Link n α)) :
    ((arrange .huge row).map Link.target).Pairwise (· ≤ ·) := by
  rw [arrange_huge, List.pairwise_map]
  refine (List.pairwise_mergeSort ?_ ?_ row).imp of_decide_eq_true
  · intro a b c first second
    exact decide_eq_true (Fin.le_trans (of_decide_eq_true first) (of_decide_eq_true second))
  · intro a b
    simpa using Fin.le_total a.target b.target

omit [Scalar α] in
/-- Links to one target stay in order. -/
theorem filter_arrange {n : Nat} (storage : Storage) (row : List (Link n α)) {p : Link n α → Bool}
    (single : ∀ {a b : Link n α}, p a → p b → a.target = b.target) :
    (arrange storage row).filter p = row.filter p := by
  cases storage with
  | dense => rfl
  | huge =>
    have kept : List.Sublist (row.filter p) (arrange .huge row) := by
      rw [arrange_huge]
      refine List.sublist_mergeSort (fun a b c first second => ?_) (fun a b => ?_) ?_
        List.filter_sublist
      · exact decide_eq_true (Fin.le_trans (of_decide_eq_true first) (of_decide_eq_true second))
      · simpa using Fin.le_total a.target b.target
      · refine List.pairwise_of_forall_mem_list fun a inside b inside' => ?_
        exact decide_eq_true
          (Fin.le_of_eq (single (List.mem_filter.1 inside).2 (List.mem_filter.1 inside').2))
    have filtered := kept.filter p
    simp only [List.filter_filter, Bool.and_self] at filtered
    exact (filtered.eq_of_length ((perm_arrange .huge row).symm.filter _).length_eq).symm

/-- The links of each node, as a storage keeps them. -/
def rowsOf (storage : Storage) (source : Source α) (ids : IdMap) :
    Table ids.size (List (Link ids.size α)) :=
  (Table.ofFn (links source ids)).map (arrange storage)

omit [Scalar α] in
@[simp]
theorem getElem_rowsOf (storage : Storage) (source : Source α) (ids : IdMap) (node : Fin ids.size) :
    (rowsOf storage source ids)[node] = arrange storage (links source ids node) := by
  simp [rowsOf]

/-- The targets of the links of each node. -/
def targetsOf (storage : Storage) (source : Source α) (ids : IdMap) :
    Table ids.size (List (Fin ids.size)) :=
  (rowsOf storage source ids).map (List.map Link.target)

/-- The graph of the links of a source. -/
def graphOf (storage : Storage) (settings : LoadSettings α) (source : Source α) (ids : IdMap) :
    Graph α :=
  .ofRows storage ids (targetsOf storage source ids)
    (weightsOf settings storage (rowsOf storage source ids).toList.flatten)

/-- Where two steps succeed, both do. -/
theorem bind_eq_ok {β γ : Type} {first : Except Error β} {next : β → Except Error γ} {result : γ}
    (succeeded : first >>= next = .ok result) : ∃ x, first = .ok x ∧ next x = .ok result := by
  cases first with
  | error e => cases succeeded
  | ok x => exact ⟨x, rfl, succeeded⟩

/-- Where two steps fail, the first one does, or the second one after it. -/
theorem bind_eq_error {β γ : Type} {first : Except Error β} {next : β → Except Error γ} {e : Error}
    (failed : first >>= next = .error e) : first = .error e ∨ ∃ x, first = .ok x ∧ next x = .error e := by
  cases first with
  | error e' => exact .inl (congrArg Except.error (Except.error.inj failed))
  | ok x => exact .inr ⟨x, rfl, failed⟩

theorem le_of_checkCapacity {storage : Storage} {what : String} {requested : Nat}
    (checked : checkCapacity storage what requested = .ok ()) : requested ≤ storage.capacity := by
  unfold checkCapacity at checked
  split at checked
  · cases checked
  · next enough => exact Nat.le_of_not_lt enough

/-- A load that succeeds has numbered the nodes of its source, has checked its links and leaves the graph of them. -/
theorem loadInto_eq_ok {storage : Storage} {settings : LoadSettings α} {source : Source α}
    {g : Graph α} (loaded : loadInto storage settings source = .ok g) :
    ∃ ids : IdMap, IdMap.ofList source.nodes = .ok ids ∧ ids.size ≤ storage.capacity
      ∧ checkRows settings storage ids 0 ((List.finRange ids.size).map fun node =>
        (node, links source ids node)) = .ok ()
      ∧ g = graphOf storage settings source ids := by
  obtain ⟨-, -, loaded⟩ := bind_eq_ok loaded
  obtain ⟨-, -, loaded⟩ := bind_eq_ok loaded
  obtain ⟨ids, numbered, loaded⟩ := bind_eq_ok loaded
  obtain ⟨_, fits, loaded⟩ := bind_eq_ok loaded
  obtain ⟨_, checked, loaded⟩ := bind_eq_ok loaded
  simp only [Table.getElem_ofFn] at checked
  exact ⟨ids, numbered, le_of_checkCapacity fits, checked, (Except.ok.inj loaded).symm⟩

end Loading

/-! ## Loaded graphs -/

/-- The graph is the result of a load. -/
def Graph.Loaded (g : Graph α) : Prop :=
  ∃ storage settings source, Loading.loadInto storage settings source = .ok g

/-- A load as the settings ask is a load into one of the storages. -/
theorem Loading.exists_load_eq (settings : LoadSettings α) (source : Source α) :
    ∃ storage, load settings source = loadInto storage settings source := by
  unfold load
  split
  · exact ⟨_, rfl⟩
  · exact ⟨_, rfl⟩
  · split
    · exact ⟨_, rfl⟩
    · split
      · next failed =>
        split
        · exact ⟨_, rfl⟩
        · exact ⟨_, failed.symm⟩
      · next dense => exact ⟨_, dense.symm⟩

/-- What is loaded as the settings ask is loaded into one of the storages. -/
theorem Loading.exists_loadInto_of_load {settings : LoadSettings α} {source : Source α} {g : Graph α}
    (h : load settings source = .ok g) : ∃ storage, loadInto storage settings source = .ok g := by
  obtain ⟨storage, same⟩ := exists_load_eq settings source
  exact ⟨storage, same ▸ h⟩

namespace Loading

open Adjacency

variable {storage : Storage} {settings : LoadSettings α} {source : Source α}

/-- A storage numbers no more nodes than there are words. -/
theorem capacity_le_wordValues (storage : Storage) : storage.capacity ≤ wordValues := by
  cases storage <;> decide

theorem shows_graphOf {ids : IdMap} (fits : ids.size ≤ storage.capacity) :
    (graphOf storage settings source ids).Shows (targetsOf storage source ids) := by
  refine Graph.shows_ofRows _ _ _ _ ?_
  rintro rfl
  refine ⟨fun node => ?_, Nat.le_trans fits (capacity_le_wordValues _)⟩
  rw [targetsOf, Table.getElem_map, getElem_rowsOf]
  exact ascending_arrange_huge _

omit [Scalar α] in
/-- What leaves a node, link by link. -/
theorem leaving_targetsOf (storage : Storage) (source : Source α) (ids : IdMap)
    (node : Fin ids.size) :
    leaving (targetsOf storage source ids) node
      = ((arrange storage (links source ids node)).zipIdx
          (before (rowsOf storage source ids) node)).map fun (link, id) => ⟨link.target, id⟩ := by
  rw [leaving, targetsOf, before_map, Table.getElem_map, getElem_rowsOf, List.zipIdx_map, List.map_map]
  rfl

/-- The graph holds the links of a source, in the form of a storage. -/
structure Stored (storage : Storage) (settings : LoadSettings α) (source : Source α) (g : Graph α) :
    Prop where
  /-- The nodes are numbered as the source lists them. -/
  ids : IdMap.ofList source.nodes = .ok g.ids
  /-- The relationships are the links. -/
  shows : g.Shows (targetsOf storage source g.ids)
  /-- The weights are those of the links. -/
  weights : g.weights = weightsOf settings storage (rowsOf storage source g.ids).toList.flatten

/-- A load that succeeds leaves a graph with the links of its source. -/
theorem stored_of_loadInto {g : Graph α} (loaded : loadInto storage settings source = .ok g) :
    Stored storage settings source g := by
  obtain ⟨ids, numbered, fits, -, rfl⟩ := loadInto_eq_ok loaded
  exact ⟨numbered, shows_graphOf fits, rfl⟩

namespace Stored

variable {g : Graph α}

theorem weighted_eq (h : Stored storage settings source g) : g.weighted = settings.weighted := by
  rw [Graph.weighted, h.weights, present_weightsOf]

/-- The relationships are counted link by link. -/
theorem relationshipCount_eq (h : Stored storage settings source g) :
    g.relationshipCount
      = ((List.finRange g.size).map fun node => (links source g.ids node).length).sum := by
  rw [h.shows.relationshipCount, arcs, arcsFrom, List.length_flatMap]
  refine congrArg List.sum (List.map_congr_left fun node _ => ?_)
  rw [List.length_map, leaving_targetsOf, List.length_map, List.length_zipIdx,
    (perm_arrange _ _).length_eq]

/-- A relationship has the weight of its link. -/
theorem weight?_of_mem_zipIdx (h : Stored storage settings source g) {node : Fin g.size}
    {link : Link g.size α} {id : Nat}
    (member : (link, id) ∈ (arrange storage (links source g.ids node)).zipIdx
      (before (rowsOf storage source g.ids) node)) :
    g.weight? id = some (link.value settings) := by
  obtain ⟨above, found⟩ := List.mk_mem_zipIdx_iff_le_and_getElem?_sub.1 member
  obtain ⟨inside, there⟩ := List.getElem?_eq_some_iff.1 found
  have place := getElem?_flatten_before (rowsOf storage source g.ids) node
    (k := id - before (rowsOf storage source g.ids) node) (by rwa [getElem_rowsOf])
  rw [Nat.add_sub_cancel' above] at place
  simp only [getElem_rowsOf, there] at place
  rw [Graph.weight?, h.weights]
  exact get?_weightsOf settings storage place

/-- What leaves a node are its links with their weights, as the storage arranges them. -/
theorem map_outgoing {β : Type} (h : Stored storage settings source g) (node : Fin g.size)
    (f : Fin g.size → Option α → β) :
    (g.relationships node .outgoing).map (fun r => f r.other (g.weight? r.id))
      = (arrange storage (links source g.ids node)).map fun link =>
          f link.target (some (link.value settings)) := by
  rw [h.shows.relationships_outgoing, leaving_targetsOf, List.map_map]
  calc _ = (((arrange storage (links source g.ids node)).zipIdx
          (before (rowsOf storage source g.ids) node)).map Prod.fst).map fun link =>
            f link.target (some (link.value settings)) := by
        rw [List.map_map]
        refine List.map_congr_left ?_
        rintro ⟨link, id⟩ member
        show f link.target _ = _
        rw [h.weight?_of_mem_zipIdx member]
        rfl
    _ = _ := by rw [List.zipIdx_map_fst]

/-- What holds of the weights of all links holds of the weights of all relationships. -/
theorem forall_weight (h : Stored storage settings source g) {P : α → Prop}
    (links : ∀ node, ∀ link ∈ links source g.ids node, P (link.value settings)) (node : Fin g.size) :
    ∀ relationship ∈ g.relationships node .outgoing, P (g.weight relationship.id) := by
  intro relationship member
  have weights := h.map_outgoing node fun _ weight => weight
  have listed : g.weight? relationship.id
      ∈ (g.relationships node .outgoing).map fun r => g.weight? r.id :=
    List.mem_map_of_mem member
  rw [weights] at listed
  obtain ⟨link, inside, found⟩ := List.mem_map.1 listed
  rw [Graph.weight, ← found]
  exact links node link ((perm_arrange _ _).mem_iff.1 inside)

/-- What enters a node are the links to it with their weights, node after node. -/
theorem map_incoming {β : Type} (h : Stored storage settings source g) (node : Fin g.size)
    (f : Fin g.size → Option α → β) :
    (g.relationships node .incoming).map (fun r => f r.other (g.weight? r.id))
      = (List.finRange g.size).flatMap fun start =>
          ((links source g.ids start).filter fun link => link.target = node).map fun link =>
            f start (some (link.value settings)) := by
  rw [h.shows.relationships_incoming, h.shows.arriving_eq_arrivals, Graph.arrivals, List.map_flatMap]
  congr 1
  funext start
  have leaves := h.map_outgoing start Prod.mk
  calc _ = (((g.relationships start .outgoing).map fun r => (r.other, g.weight? r.id)).filter
          fun entry => entry.1 = node).map fun entry => f start entry.2 := by
        rw [List.map_map, List.filter_map, List.map_map]
        rfl
    _ = (((arrange storage (links source g.ids start)).filter fun link => link.target = node).map
          fun link => f start (some (link.value settings))) := by
        rw [leaves, List.filter_map, List.map_map]
        rfl
    _ = _ := by
        rw [filter_arrange storage _ fun here there => ?_]
        exact (of_decide_eq_true here).trans (of_decide_eq_true there).symm

end Stored

end Loading

end NetworkAnalysis
