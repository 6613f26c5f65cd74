import NetworkAnalysis.Proofs.LoadedGraph

/-!
# What a load refuses and what it keeps

The outcome of a load is a matter of what its source lists. A load fails with the first of the reasons to refuse the
source (`refusal`), which are tested in one order for both storages. If there is none, the graph has the labels of the
source in order, and the relationships between them with their weights (`Keeps`). Relationships to other labels are
dropped before anything is asked of their weights.
-/

namespace NetworkAnalysis

/-! ## Numberings -/

namespace IdMap

theorem number?_eq_none_iff {m : IdMap} {label : Nat} : m.number? label = none ↔ label ∉ m.labels.toList := by
  have numbered : (∃ node, m.number? label = some node) ↔ label ∈ m.labels.toList := by
    simp only [number?_eq_some_iff, label?, ← Array.getElem?_toList, List.mem_iff_getElem?]
  rw [← numbered, Option.eq_none_iff_forall_ne_some, not_exists]

/-- The first label of a list that stands in it before. -/
def firstRepeated (labels : List Nat) : Option Nat :=
  (labels.zipIdx.find? fun entry => entry.1 ∈ labels.take entry.2).map Prod.fst

theorem firstRepeated_eq_none {labels : List Nat} (distinct : labels.Nodup) : firstRepeated labels = none := by
  rw [firstRepeated, Option.map_eq_none_iff, List.find?_eq_none]
  rintro ⟨label, place⟩ member again
  obtain ⟨inside, here⟩ := List.getElem?_eq_some_iff.1 (List.mk_mem_zipIdx_iff_getElem?.1 member)
  obtain ⟨before, earlier, there⟩ := List.mem_take_iff_getElem.1 (of_decide_eq_true again)
  have same := distinct.getElem_inj_iff.1 (there.trans here.symm)
  omega

/-- Labels are added up to the first one that is there already. -/
theorem foldlM_add_cases (rest : List Nat) {before : List Nat} {m : IdMap} (listed : m.labels.toList = before) :
    match (rest.zipIdx before.length).find? fun entry => entry.1 ∈ (before ++ rest).take entry.2 with
    | some (label, _) => rest.foldlM add m = .error (.duplicateNode label)
    | none => ∃ ids : IdMap, rest.foldlM add m = .ok ids ∧ ids.labels.toList = before ++ rest := by
  -- The labels before the rest grow along with the numbering, which holds just them.
  induction rest generalizing before m with
  | nil => exact ⟨m, rfl, listed.trans (List.append_nil _).symm⟩
  | cons label rest ih =>
    have first : (before ++ label :: rest).take before.length = before := List.take_left
    rw [List.zipIdx_cons, List.find?_cons, List.foldlM_cons, first]
    by_cases again : label ∈ before
    · have numbered : m.number? label ≠ none := fun new => number?_eq_none_iff.1 new (listed ▸ again)
      rw [decide_eq_true again, add, assign, dif_neg numbered]
      rfl
    · have new : m.number? label = none := number?_eq_none_iff.2 (listed ▸ again)
      have extended : (m.push label new).labels.toList = before ++ [label] := by simp [push, listed]
      have later := ih extended
      rw [List.length_append, List.length_singleton, List.append_assoc, List.singleton_append] at later
      rw [decide_eq_false again, add, assign, dif_pos new]
      exact later

/-- Labels are numbered in order, unless one of them is repeated. -/
theorem ofList_cases (labels : List Nat) :
    match firstRepeated labels with
    | some label => ofList labels = .error (.duplicateNode label)
    | none => ∃ ids : IdMap, ofList labels = .ok ids ∧ ids.labels.toList = labels := by
  have nothing : empty.labels.toList = [] := rfl
  have added := foldlM_add_cases labels nothing
  rw [List.nil_append, List.length_nil] at added
  unfold firstRepeated
  cases repeated : labels.zipIdx.find? fun entry => entry.1 ∈ labels.take entry.2 with
  | some hit =>
    rw [repeated] at added
    exact added
  | none =>
    rw [repeated] at added
    exact added

example : firstRepeated [5, 7, 9, 7, 5] = some 7 := by decide

/-- Distinct labels are numbered in order. -/
theorem exists_ofList {labels : List Nat} (distinct : labels.Nodup) :
    ∃ ids : IdMap, ofList labels = .ok ids ∧ ids.labels.toList = labels := by
  have numbered := ofList_cases labels
  rwa [firstRepeated_eq_none distinct] at numbered

theorem labels_ofList {labels : List Nat} {ids : IdMap} (numbered : ofList labels = .ok ids) :
    ids.labels.toList = labels := by
  have cases := ofList_cases labels
  rw [numbered] at cases
  cases repeated : firstRepeated labels with
  | some label =>
    rw [repeated] at cases
    cases cases
  | none =>
    rw [repeated] at cases
    obtain ⟨ids', same, listed⟩ := cases
    cases same
    exact listed

theorem map_label_finRange (m : IdMap) :
    (List.finRange m.size).map m.label = m.labels.toList := by
  refine List.ext_getElem ?_ fun i _ _ => ?_
  · rw [List.length_map, List.length_finRange]
    rfl
  · rw [List.getElem_map, List.getElem_finRange]
    rfl

theorem mem_labels_iff {m : IdMap} {label : Nat} :
    label ∈ m.labels.toList ↔ ∃ node : Fin m.size, m.label node = label := by
  rw [← m.map_label_finRange]
  simp

theorem label_injective (m : IdMap) : Function.Injective m.label := by
  intro u v same
  have numbered : ∀ node : Fin m.size, m.number? (m.label node) = some node.val :=
    fun node => number?_eq_some_iff.2 (Array.getElem?_eq_getElem node.isLt)
  have both := (numbered u).symm.trans (same ▸ numbered v)
  exact Fin.ext (Option.some.inj both)

/-- The labels of a numbering are found again. -/
theorem map_label_node? (m : IdMap) (label : Nat) :
    (m.node? label).map m.label = if label ∈ m.labels.toList then some label else none := by
  unfold node?
  split
  · next new => rw [if_neg (number?_eq_none_iff.1 new), Option.map_none]
  · next node numbered =>
    have here : label ∈ m.labels.toList := by
      by_contra new
      rw [number?_eq_none_iff.2 new] at numbered
      cases numbered
    have labelled := number?_eq_some_iff.1 numbered
    rw [label?, Array.getElem?_eq_getElem (lt_size_of_number? numbered)] at labelled
    rw [if_pos here, Option.map_some]
    exact labelled

end IdMap

namespace Loading

variable {α : Type} {storage : Storage} {settings : LoadSettings α} {source : Source α} {ids : IdMap}

/-! ## What is kept -/

/-- The relationships that leave a label for one of the labels of the source. -/
def keptFrom (source : Source α) (label : Nat) : List (Nat × Option α) :=
  (source.relationships label).filter fun entry => entry.1 ∈ source.nodes

/-- All relationships between labels of the source, label by label. -/
def kept (source : Source α) : List (Nat × Nat × Option α) :=
  source.nodes.flatMap fun label => (keptFrom source label).map fun entry => (label, entry)

/-- The links of a node are what is kept of its label. -/
theorem map_links (listed : ids.labels.toList = source.nodes) (node : Fin ids.size) :
    (links source ids node).map (fun link => (ids.label link.target, link.weight))
      = keptFrom source (ids.label node) := by
  unfold links keptFrom
  rw [List.map_filterMap, ← List.filterMap_eq_filter]
  congr 1
  funext entry
  have labelled := ids.map_label_node? entry.1
  rw [listed] at labelled
  by_cases inside : entry.1 ∈ source.nodes
  · rw [if_pos inside] at labelled
    obtain ⟨target, found, same⟩ := Option.map_eq_some_iff.1 labelled
    simp [found, same, inside]
  · rw [if_neg inside, Option.map_eq_none_iff] at labelled
    simp [labelled, Option.guard, inside]

theorem flatMap_links (listed : ids.labels.toList = source.nodes) :
    ((List.finRange ids.size).flatMap fun node => (links source ids node).map fun link =>
      (ids.label node, ids.label link.target, link.weight)) = kept source := by
  rw [kept, ← listed, ← ids.map_label_finRange, List.flatMap_map]
  congr 1
  funext node
  rw [← map_links listed, List.map_map]
  rfl

theorem forall_links_iff (listed : ids.labels.toList = source.nodes) {P : Option α → Prop} :
    (∀ node, ∀ link ∈ links source ids node, P link.weight) ↔ ∀ entry ∈ kept source, P entry.2.2 := by
  rw [← flatMap_links listed]
  simp only [List.mem_flatMap, List.mem_map, List.mem_finRange, true_and]
  constructor
  · rintro holds _ ⟨node, link, member, rfl⟩
    exact holds node link member
  · intro holds node link member
    exact holds _ ⟨node, link, member, rfl⟩

theorem mem_flatten_rowsOf_iff {link : Link ids.size α} :
    link ∈ (rowsOf storage source ids).toList.flatten ↔ ∃ node, link ∈ links source ids node := by
  rw [List.mem_flatten]
  constructor
  · rintro ⟨row, listed, member⟩
    obtain ⟨node, rfl⟩ := Table.exists_of_mem_toList listed
    rw [getElem_rowsOf] at member
    exact ⟨node, (perm_arrange _ _).mem_iff.1 member⟩
  · rintro ⟨node, member⟩
    refine ⟨_, Table.getElem_mem_toList (rowsOf storage source ids) node, ?_⟩
    rw [getElem_rowsOf]
    exact (perm_arrange _ _).mem_iff.2 member

/-! ## Reasons to refuse -/

/-- More nodes than the storage can number. -/
def excess (storage : Storage) (nodes : Nat) : Option Error :=
  if storage.capacity < nodes then some (capacityError storage "node" nodes) else none

/-- The first relationship that is kept and has no weight although it needs one. -/
def unweighted (settings : LoadSettings α) (source : Source α) : Option Error :=
  if settings.weighted && settings.defaultWeight.isNone then
    ((kept source).find? fun entry => entry.2.2.isNone).map fun entry =>
      .misconfigured (.unweightedRelationship entry.1 entry.2.1)
  else
    none

/-- Fails with an error, if there is one. -/
def raise : Option Error → Except Error Unit
  | some e => .error e
  | none => .ok ()

theorem checkCapacity_eq_ok {what : String} {requested : Nat} (fits : requested ≤ storage.capacity) :
    checkCapacity storage what requested = .ok () :=
  if_neg (Nat.not_lt.2 fits)

theorem checkCapacity_eq_raise (storage : Storage) (nodes : Nat) :
    checkCapacity storage "node" nodes = raise (excess storage nodes) := by
  unfold checkCapacity excess
  split <;> rfl

/-- If the rows are within the capacity, the first link that lacks a weight is refused. -/
theorem checkRows_eq (rows : List (Fin ids.size × List (Link ids.size α))) {total : Nat}
    (fits : total + (rows.map fun entry => entry.2.length).sum ≤ storage.capacity) :
    checkRows settings storage ids total rows = raise (rows.findSome? fun entry =>
      (firstUnweighted settings entry.2).map fun link =>
        .misconfigured (.unweightedRelationship (ids.label entry.1) (ids.label link.target))) := by
  induction rows generalizing total with
  | nil => rfl
  | cons entry rest ih =>
    rw [List.map_cons, List.sum_cons, ← Nat.add_assoc] at fits
    have within : checkCapacity storage "relationship" (total + entry.2.length) = .ok () :=
      checkCapacity_eq_ok (Nat.le_trans (Nat.le_add_right _ _) fits)
    rw [checkRows, List.findSome?_cons]
    cases firstUnweighted settings entry.2 with
    | some link => rfl
    | none =>
      simp only [within, bind, Except.bind]
      exact ih fits

theorem checkRows_links (listed : ids.labels.toList = source.nodes)
    (fits : (kept source).length ≤ storage.capacity) :
    checkRows settings storage ids 0 ((List.finRange ids.size).map fun node => (node, links source ids node))
      = raise (unweighted settings source) := by
  rw [← flatMap_links listed, List.length_flatMap] at fits
  simp only [List.length_map] at fits
  rw [checkRows_eq, List.findSome?_map]
  · unfold unweighted firstUnweighted
    split
    · rw [← flatMap_links listed, List.find?_flatMap, List.map_findSome?]
      simp only [List.find?_map, Function.comp_def, Option.map_map]
    · simp only [Function.comp_def, Option.map_none]
      exact congrArg raise (List.findSome?_eq_none_iff.2 fun _ _ => rfl)
  · rwa [List.map_map, Nat.zero_add]

theorem ne_none_of_unweighted (given : unweighted settings source = none) (weighted : settings.weighted = true)
    (unset : settings.defaultWeight = none) : ∀ entry ∈ kept source, entry.2.2 ≠ none := by
  rw [unweighted, weighted, unset] at given
  have found := List.find?_eq_none.1 (Option.map_eq_none_iff.1 given)
  simpa [Option.isNone_iff_eq_none] using found

variable [Scalar α]

/-- A default weight that is negative or not finite. -/
def unusableDefault (settings : LoadSettings α) : Option Error :=
  settings.defaultWeight.bind fun weight =>
    if !Scalar.isFinite weight || decide (weight < Scalar.zero) then
      some (.misconfigured (.defaultWeight (Scalar.text weight)))
    else
      none

theorem validate_eq_raise (settings : LoadSettings α) : settings.validate = raise (unusableDefault settings) := by
  unfold LoadSettings.validate unusableDefault
  cases settings.defaultWeight with
  | none => rfl
  | some weight =>
    simp only [Option.bind_some]
    split <;> rfl

/-- The first reason to refuse a source whose relationships are not too many. -/
def refusal (storage : Storage) (settings : LoadSettings α) (source : Source α) : Option Error :=
  excess storage source.declared
    <|> unusableDefault settings
    <|> (IdMap.firstRepeated source.nodes).map .duplicateNode
    <|> excess storage source.nodes.length
    <|> unweighted settings source

/-- A load fails with the first reason to refuse its source, or leaves the graph of its links. -/
theorem loadInto_eq (settings : LoadSettings α) (fits : (kept source).length ≤ storage.capacity) :
    match refusal storage settings source with
    | some e => loadInto storage settings source = .error e
    | none => unweighted settings source = none ∧ ∃ ids : IdMap, ids.labels.toList = source.nodes
      ∧ loadInto storage settings source = .ok (graphOf storage settings source ids) := by
  have numbered := IdMap.ofList_cases source.nodes
  unfold refusal loadInto
  simp only [checkCapacity_eq_raise, validate_eq_raise, Table.getElem_ofFn]
  -- A load comes to the reasons in their order, so that each of them is looked at when those before it do not hold.
  cases excess storage source.declared with
  | some e => rfl
  | none =>
  cases unusableDefault settings with
  | some e => rfl
  | none =>
  cases repeated : IdMap.firstRepeated source.nodes with
  | some label =>
    rw [repeated] at numbered
    rw [numbered]
    rfl
  | none =>
  rw [repeated] at numbered
  obtain ⟨ids, numbered, listed⟩ := numbered
  have size : ids.size = source.nodes.length := congrArg List.length listed
  rw [numbered]
  simp only [raise, bind, Except.bind, size, checkRows_links listed fits]
  cases excess storage source.nodes.length with
  | some e => rfl
  | none =>
  cases unweighted settings source with
  | some e => rfl
  | none => exact ⟨rfl, ids, listed, rfl⟩

/-! ## What a load leaves -/

/-- The weight of a relationship after a load: its own one, else the default; one in a load without weights. -/
def weightGiven (settings : LoadSettings α) (own : Option α) : Option α :=
  if settings.weighted then own.or settings.defaultWeight else some Scalar.one

/-- A graph has the labels of a source in order, and the relationships between them with their weights. -/
structure Keeps (settings : LoadSettings α) (source : Source α) (g : Graph α) : Prop where
  labels : g.ids.labels.toList = source.nodes
  numbers : ∀ label node : Nat, g.ids.number? label = some node ↔ source.nodes[node]? = some label
  weighted : g.weighted = settings.weighted
  relationshipCount : g.relationshipCount = (kept source).length
  outgoing : ∀ node : Fin g.size,
    ((g.relationships node .outgoing).map fun r => (g.ids.label r.other, g.weight? r.id)).Perm
      ((keptFrom source (g.ids.label node)).map fun entry => (entry.1, weightGiven settings entry.2))
  /-- One weight stands for all of them if weights are asked for and none that is kept has its own. -/
  uniform : ∀ weight : α, g.weights = .uniform weight
    ↔ settings.weighted = true ∧ settings.defaultWeight = some weight ∧ ∀ entry ∈ kept source, entry.2.2 = none

theorem some_value_eq {n : Nat} {link : Link n α}
    (given : settings.weighted = true → settings.defaultWeight = none → link.weight ≠ none) :
    some (link.value settings) = weightGiven settings link.weight := by
  unfold Link.value weightGiven
  split
  · next weighted =>
    cases own : link.weight with
    | some weight => rfl
    | none =>
      cases unset : settings.defaultWeight with
      | some weight => rfl
      | none => exact absurd own (given weighted unset)
  · rfl

theorem weightsOf_eq_uniform_iff {n : Nat} {links : List (Link n α)} {weight : α} :
    weightsOf settings storage links = .uniform weight
      ↔ settings.weighted = true ∧ settings.defaultWeight = some weight ∧ ∀ link ∈ links, link.weight = none := by
  have none_iff : (links.any fun link => link.weight.isSome) = false ↔ ∀ link ∈ links, link.weight = none := by
    simp
  rw [← none_iff]
  unfold weightsOf
  by_cases weighted : settings.weighted = true
  · rw [if_pos weighted]
    cases settings.defaultWeight <;> cases (links.any fun link => link.weight.isSome) <;>
      cases storage <;> simp [weighted, weightTable]
  · rw [if_neg weighted]
    simp [weighted]

theorem Stored.listed {g : Graph α} (h : Stored storage settings source g) : g.ids.labels.toList = source.nodes :=
  IdMap.labels_ofList h.ids

theorem Stored.relationshipCount_kept {g : Graph α} (h : Stored storage settings source g) :
    g.relationshipCount = (kept source).length := by
  rw [h.relationshipCount_eq, ← flatMap_links h.listed, List.length_flatMap]
  simp only [List.length_map]

theorem Stored.weights_eq_uniform_iff {g : Graph α} (h : Stored storage settings source g) {weight : α} :
    g.weights = .uniform weight
      ↔ settings.weighted = true ∧ settings.defaultWeight = some weight ∧ ∀ entry ∈ kept source, entry.2.2 = none := by
  have rows : (∀ link ∈ (rowsOf storage source g.ids).toList.flatten, link.weight = none)
      ↔ ∀ entry ∈ kept source, entry.2.2 = none := by
    rw [← forall_links_iff (P := (· = none)) h.listed]
    simp only [mem_flatten_rowsOf_iff, forall_exists_index]
    exact forall_comm
  rw [h.weights, weightsOf_eq_uniform_iff, rows]

theorem Stored.keeps {g : Graph α} (h : Stored storage settings source g)
    (given : unweighted settings source = none) : Keeps settings source g := by
  have listed := h.listed
  constructor
  case labels => exact listed
  case numbers =>
    intro label node
    rw [IdMap.number?_eq_some_iff, IdMap.label?, ← Array.getElem?_toList, listed]
  case weighted => exact h.weighted_eq
  case relationshipCount => exact h.relationshipCount_kept
  case outgoing =>
    intro node
    have weights : ∀ link ∈ links source g.ids node, some (link.value settings) = weightGiven settings link.weight :=
      fun link member => some_value_eq fun weighted unset =>
        (forall_links_iff (P := (· ≠ none)) listed).2 (ne_none_of_unweighted given weighted unset) node link member
    -- Sorting the links by target is all that the storages differ in.
    calc (g.relationships node .outgoing).map fun r => (g.ids.label r.other, g.weight? r.id)
      _ = (arrange storage (links source g.ids node)).map fun link =>
          (g.ids.label link.target, some (link.value settings)) :=
        h.map_outgoing node fun target weight => (g.ids.label target, weight)
      List.Perm _ ((links source g.ids node).map fun link =>
          (g.ids.label link.target, some (link.value settings))) := (perm_arrange storage _).map _
      _ = (links source g.ids node).map fun link => (g.ids.label link.target, weightGiven settings link.weight) :=
        List.map_congr_left fun link member => by rw [weights link member]
      _ = _ := by
        rw [← map_links listed, List.map_map]
        rfl
  case uniform => exact fun weight => h.weights_eq_uniform_iff

/-- A node leads to another as often as their labels are listed. -/
theorem Keeps.count_outgoing {g : Graph α} (h : Keeps settings source g) (u v : Fin g.size) :
    ((g.relationships u .outgoing).map Relationship.other).count v
      = ((keptFrom source (g.ids.label u)).map Prod.fst).count (g.ids.label v) := by
  have labels := (h.outgoing u).map Prod.fst
  rw [List.map_map, List.map_map] at labels
  rw [← List.count_map_of_injective _ _ g.ids.label_injective, List.map_map]
  exact labels.count_eq _

/-- Four labels; two relationships lead from 10 to 30, one has no weight, and one leads nowhere. -/
def junctions : Source Rat where
  declared := 4
  nodes := [10, 20, 30, 40]
  relationships
    | 10 => [(30, some 3), (20, some 1), (30, some 2)]
    | 20 => [(30, some 1), (20, some 0)]
    | 30 => [(10, none)]
    | _ => [(99, none)]

/-- Weights are loaded; a relationship without one has weight five. -/
def fiveByDefault : LoadSettings Rat where
  weighted := true
  defaultWeight := some 5

/-- A load into either storage fails with the first reason to refuse its source. If there is none, it succeeds and keeps
what the source lists between its labels. -/
theorem loadInto_outcome (settings : LoadSettings α) (fits : (kept source).length ≤ storage.capacity) :
    match refusal storage settings source with
    | some e => loadInto storage settings source = .error e
    | none => ∃ g, loadInto storage settings source = .ok g ∧ Keeps settings source g := by
  have outcome := loadInto_eq settings fits
  cases refused : refusal storage settings source with
  | some e =>
    rw [refused] at outcome
    exact outcome
  | none =>
    rw [refused] at outcome
    obtain ⟨given, ids, -, loaded⟩ := outcome
    exact ⟨_, loaded, (stored_of_loadInto loaded).keeps given⟩

/-- Among the junctions, the relationship from 30 to 10 needs the default weight. The one from 40 to 99 is dropped. -/
theorem loadInto_outcome_junctions : ∃ g : Graph Rat,
    (kept junctions).length ≤ Storage.dense.capacity ∧ (kept junctions).length ≤ Storage.huge.capacity
      ∧ loadInto .dense { weighted := true } junctions = .error (.misconfigured (.unweightedRelationship 30 10))
      ∧ loadInto .huge fiveByDefault junctions = .ok g ∧ Keeps fiveByDefault junctions g := by
  have fits : (kept junctions).length ≤ Storage.dense.capacity := by decide
  have fits' : (kept junctions).length ≤ Storage.huge.capacity := by decide
  have refused : refusal .dense { weighted := true } junctions
      = some (.misconfigured (.unweightedRelationship 30 10)) := by decide
  have accepted : refusal .huge fiveByDefault junctions = none := by decide
  have fails := loadInto_outcome { weighted := true } fits
  have succeeds := loadInto_outcome fiveByDefault fits'
  rw [refused] at fails
  rw [accepted] at succeeds
  obtain ⟨g, loaded, keeps⟩ := succeeds
  exact ⟨g, fits, fits', fails, loaded, keeps⟩

end Loading

end NetworkAnalysis
