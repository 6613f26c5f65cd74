import NetworkAnalysis.Proofs.LoadOutcome

/-!
# Labels and edges in the order of their declaration

A numbering that labels are added to, refused ones among them, numbers the labels in the order in which each of them
came first (`IdMap.labels_assignAll`). An edge list numbers the labels that its declarations name in the same way,
however nodes, edges and dangling edges are mixed (`EdgeList.ids_declareAll`), and keeps the edges of each label in
order. So a load of an edge list meets every label once, and numbers the labels as they were declared.
-/

namespace NetworkAnalysis

/-! ## Numberings -/

namespace IdMap

/-- A numbering gives labels their places in a list, and numbers no others. -/
structure Numbers (m : IdMap) (labels : List Nat) : Prop where
  distinct : labels.Nodup
  size : m.size = labels.length
  label : ∀ node, m.label? node = labels[node]?
  number : ∀ label, m.number? label = labels.idxOf? label
  inverse : ∀ label node, m.number? label = some node ↔ m.label? node = some label

theorem nodup_labels (m : IdMap) : m.labels.toList.Nodup := by
  rw [← m.map_label_finRange]
  exact (List.nodup_finRange _).map m.label_injective

/-- Every numbering numbers its own labels. -/
theorem numbers_of_labels {m : IdMap} {labels : List Nat} (listed : m.labels.toList = labels) : m.Numbers labels := by
  subst listed
  have place : ∀ node, m.label? node = m.labels.toList[node]? := fun node => Array.getElem?_toList.symm
  constructor
  case distinct => exact m.nodup_labels
  case size => rfl
  case label => exact place
  case number =>
    intro label
    refine Option.ext fun node => ?_
    rw [number?_eq_some_iff, place, List.idxOf?_eq_some_iff, List.getElem?_eq_some_iff]
    constructor
    · rintro ⟨inside, here⟩
      refine ⟨inside, here, fun before earlier there => ?_⟩
      have same := m.nodup_labels.getElem_inj_iff.1 (there.trans here.symm)
      omega
    · rintro ⟨inside, here, -⟩
      exact ⟨inside, here⟩
  case inverse => exact fun label node => number?_eq_some_iff

/-- Adds labels one after the other and goes on after those that are refused. -/
def assignAll (m : IdMap) (labels : List Nat) : IdMap :=
  labels.foldl (fun m label => (m.assign label).1) m

theorem assign_of_mem {m : IdMap} {label : Nat} (known : label ∈ m.labels.toList) :
    m.assign label = (m, .error (.duplicateNode label)) := by
  have numbered : m.number? label ≠ none := fun new => number?_eq_none_iff.1 new known
  rw [assign, dif_neg numbered]

theorem assign_of_not_mem {m : IdMap} {label : Nat} (new : label ∉ m.labels.toList) :
    (m.assign label).1.labels.toList = m.labels.toList ++ [label] ∧ (m.assign label).2 = .ok m.size := by
  rw [assign, dif_pos (number?_eq_none_iff.2 new)]
  exact ⟨by simp [push], rfl⟩

theorem eraseDups_concat (labels : List Nat) (label : Nat) :
    (labels ++ [label]).eraseDups = if label ∈ labels then labels.eraseDups else labels.eraseDups ++ [label] := by
  rw [List.eraseDups_append]
  split
  · next known => simp [List.removeAll, known]
  · next new =>
    simp [List.removeAll, new]
    rfl

/-- The labels that are numbered are those that were added, each at the place where it came first. -/
theorem labels_assignAll (labels : List Nat) : (empty.assignAll labels).labels.toList = labels.eraseDups := by
  induction labels using List.reverseRecOn with
  | nil => rfl
  | append_singleton labels label ih =>
    rw [assignAll, List.foldl_append, eraseDups_concat]
    show ((empty.assignAll labels).assign label).1.labels.toList = _
    by_cases known : label ∈ labels
    · rw [assign_of_mem (by rwa [ih, List.mem_eraseDups]), if_pos known, ih]
    · rw [(assign_of_not_mem (by rwa [ih, List.mem_eraseDups])).1, if_neg known, ih]

theorem mem_labels_assignAll {labels : List Nat} {label : Nat} :
    label ∈ (empty.assignAll labels).labels.toList ↔ label ∈ labels := by
  rw [labels_assignAll, List.mem_eraseDups]

/-- A label is refused if it was added before, and then nothing changes. Else it gets the next number. -/
theorem assign_assignAll (labels : List Nat) (label : Nat) :
    let m := empty.assignAll labels
    if label ∈ labels then m.assign label = (m, .error (.duplicateNode label))
    else (m.assign label).2 = .ok m.size := by
  intro m
  split
  · next known => exact assign_of_mem (mem_labels_assignAll.2 known)
  · next new => exact (assign_of_not_mem (mt mem_labels_assignAll.1 new)).2

/-- The number that was answered for a label stays with it, whatever is added later. -/
theorem number?_assignAll_of_assign {before : List Nat} {label node : Nat}
    (answered : ((empty.assignAll before).assign label).2 = .ok node) (after : List Nat) :
    (empty.assignAll (before ++ label :: after)).number? label = some node := by
  have answer := assign_assignAll before label
  dsimp only at answer
  split at answer
  · rw [answer] at answered
    cases answered
  · next new =>
    obtain rfl := Except.ok.inj (answer.symm.trans answered)
    have place : (empty.assignAll before).size = before.eraseDups.length :=
      congrArg List.length (labels_assignAll before)
    rw [number?_eq_some_iff, label?, ← Array.getElem?_toList, labels_assignAll, List.append_cons,
      List.eraseDups_append, eraseDups_concat, if_neg new, place]
    simp

/-- A label has just the number that it was once answered. -/
theorem number?_assignAll_eq_some_iff {labels : List Nat} {label node : Nat} :
    (empty.assignAll labels).number? label = some node
      ↔ ∃ before after, labels = before ++ label :: after
        ∧ ((empty.assignAll before).assign label).2 = .ok node := by
  constructor
  · intro numbered
    have known : label ∈ labels := by
      by_contra new
      rw [number?_eq_none_iff.2 (mt mem_labels_assignAll.1 new)] at numbered
      cases numbered
    obtain ⟨before, after, rfl, new⟩ := List.eq_append_cons_of_mem known
    have answered := assign_assignAll before label
    rw [if_neg new] at answered
    have same := (number?_assignAll_of_assign answered after).symm.trans numbered
    exact ⟨before, after, rfl, answered.trans (congrArg _ (Option.some.inj same))⟩
  · rintro ⟨before, after, rfl, answered⟩
    exact number?_assignAll_of_assign answered after

end IdMap

/-! ## Edge lists -/

/-- A node or an edge that is put into an edge list. -/
inductive Declaration (α : Type) where
  /-- A node. -/
  | node (label : Nat)
  /-- An edge, with a weight if it has one. -/
  | edge (source target : Nat) (weight : Option α)
  /-- An edge that does not declare its target. -/
  | dangling (source target : Nat)

namespace Declaration

variable {α : Type}

/-- The labels that are declared, in order. -/
def labels : Declaration α → List Nat
  | node label => [label]
  | edge source target _ => [source, target]
  | dangling source _ => [source]

/-- The source, the target and the weight of the edge, if it is one. -/
def edge? : Declaration α → Option (Nat × Nat × Option α)
  | node _ => none
  | edge source target weight => some (source, target, weight)
  | dangling source target => some (source, target, none)

end Declaration

namespace EdgeList

variable {α : Type} {l : EdgeList α}

/-- Follows a declaration. -/
def declare (l : EdgeList α) : Declaration α → EdgeList α
  | .node label => l.addNode label
  | .edge source target weight => l.addEdge source target weight
  | .dangling source target => l.addDangling source target

/-- The edge list of some declarations. -/
def declareAll (declarations : List (Declaration α)) : EdgeList α :=
  declarations.foldl declare empty

/-! ### Labels -/

theorem ids_addNode (l : EdgeList α) (label : Nat) : (l.addNode label).ids = (l.ids.assign label).1 := by
  unfold addNode IdMap.assign
  split <;> rfl

theorem ids_attach (l : EdgeList α) (source target : Nat) (weight : Option α) :
    (l.attach source target weight).ids = l.ids := by
  unfold attach
  split <;> rfl

theorem ids_declare (l : EdgeList α) (declaration : Declaration α) :
    (l.declare declaration).ids = l.ids.assignAll declaration.labels := by
  cases declaration with
  | node label => exact ids_addNode l label
  | edge source target weight =>
    rw [declare, addEdge, ids_attach, ids_addNode, ids_addNode]
    rfl
  | dangling source target =>
    rw [declare, addDangling, ids_attach, ids_addNode]
    rfl

/-- The labels of an edge list are numbered as its declarations name them. -/
theorem ids_declareAll (declarations : List (Declaration α)) :
    (declareAll declarations).ids = IdMap.empty.assignAll (declarations.flatMap Declaration.labels) := by
  rw [IdMap.assignAll, List.foldl_flatMap]
  exact (List.foldl_hom EdgeList.ids fun l declaration => (ids_declare l declaration).symm).symm

theorem mem_labels_addNode (l : EdgeList α) (label : Nat) : label ∈ (l.addNode label).ids.labels.toList := by
  rw [ids_addNode]
  by_cases known : label ∈ l.ids.labels.toList
  · rwa [IdMap.assign_of_mem known]
  · rw [(IdMap.assign_of_not_mem known).1]
    exact List.mem_concat_self

theorem mem_labels_addNode_of_mem {other : Nat} (known : other ∈ l.ids.labels.toList) (label : Nat) :
    other ∈ (l.addNode label).ids.labels.toList := by
  rw [ids_addNode]
  by_cases again : label ∈ l.ids.labels.toList
  · rwa [IdMap.assign_of_mem again]
  · rw [(IdMap.assign_of_not_mem again).1]
    exact List.mem_append_left _ known

/-! ### Edges -/

theorem edgesFrom_of_not_mem {label : Nat} (unknown : label ∉ l.ids.labels.toList) : l.edgesFrom label = [] := by
  rw [edgesFrom, IdMap.number?_eq_none_iff.2 unknown]

/-- A node is declared without edges. -/
theorem edgesFrom_addNode (l : EdgeList α) (label other : Nat) :
    (l.addNode label).edgesFrom other = l.edgesFrom other := by
  unfold addNode
  split
  · next new =>
    have pushed : (l.ids.push label new).number? other
        = if label = other then some l.ids.size else l.ids.number? other := by
      simp [IdMap.number?, IdMap.push, IdMap.size, Std.HashMap.getElem?_insert]
    by_cases same : label = other
    · -- Before, the label had no edges as it was unknown; now it has none as its slot is empty.
      subst same
      simp [edgesFrom, pushed, new, ← l.size_edges]
    · cases numbered : l.ids.number? other with
      | none => simp [edgesFrom, pushed, same, numbered]
      | some slot =>
        have inside : slot < l.edges.size := l.size_edges ▸ IdMap.lt_size_of_number? numbered
        simp [edgesFrom, pushed, same, numbered, Array.getElem?_push, Nat.ne_of_lt inside]
  · rfl

theorem exists_number?_of_mem {label : Nat} (known : label ∈ l.ids.labels.toList) :
    ∃ slot < l.edges.size, l.ids.number? label = some slot := by
  cases numbered : l.ids.number? label with
  | none => exact absurd known (IdMap.number?_eq_none_iff.1 numbered)
  | some slot => exact ⟨slot, l.size_edges ▸ IdMap.lt_size_of_number? numbered, rfl⟩

/-- An edge goes behind the edges of its source and leaves those of the other labels alone. -/
theorem edgesFrom_attach {source : Nat} (known : source ∈ l.ids.labels.toList) (target : Nat) (weight : Option α)
    (label : Nat) :
    (l.attach source target weight).edgesFrom label
      = l.edgesFrom label ++ if source = label then [(target, weight)] else [] := by
  obtain ⟨slot, inside, numbered⟩ := exists_number?_of_mem known
  unfold attach
  rw [numbered]
  by_cases same : source = label
  · subst same
    simp [edgesFrom, numbered, Array.getElem_modify, inside]
  · rw [if_neg same, List.append_nil]
    cases other : l.ids.number? label with
    | none => simp [edgesFrom, other]
    | some place =>
      have apart : slot ≠ place := by
        rintro rfl
        have labelled := (IdMap.number?_eq_some_iff.1 numbered).symm.trans (IdMap.number?_eq_some_iff.1 other)
        exact same (Option.some.inj labelled)
      simp [edgesFrom, other, Array.getElem?_modify, apart]

theorem edgeCount_eq_sum (l : EdgeList α) : l.edgeCount = (l.edges.toList.map Array.size).sum := by
  rw [edgeCount, ← Array.foldl_toList, List.sum_eq_foldl, List.foldl_map]

theorem sum_size_modify {rows : List (Array (Nat × Option α))} {slot : Nat} (inside : slot < rows.length)
    (edge : Nat × Option α) :
    ((rows.modify slot fun row => row.push edge).map Array.size).sum = (rows.map Array.size).sum + 1 := by
  induction rows generalizing slot with
  | nil => cases inside
  | cons row rest ih =>
    cases slot with
    | zero =>
      simp
      omega
    | succ slot =>
      rw [List.modify_succ_cons, List.map_cons, List.map_cons, List.sum_cons, List.sum_cons,
        ih (Nat.lt_of_succ_lt_succ inside), Nat.add_assoc]

theorem edgeCount_addNode (l : EdgeList α) (label : Nat) : (l.addNode label).edgeCount = l.edgeCount := by
  unfold addNode
  split
  · simp [edgeCount_eq_sum]
  · rfl

theorem edgeCount_attach {source : Nat} (known : source ∈ l.ids.labels.toList) (target : Nat) (weight : Option α) :
    (l.attach source target weight).edgeCount = l.edgeCount + 1 := by
  obtain ⟨slot, inside, numbered⟩ := exists_number?_of_mem known
  unfold attach
  rw [numbered, edgeCount_eq_sum, edgeCount_eq_sum, Array.toList_modify]
  exact sum_size_modify inside _

/-! ### Declarations -/

/-- An edge list holds these edges: those of each label, and no more. -/
structure Holds (l : EdgeList α) (edges : List (Nat × Nat × Option α)) : Prop where
  edgesFrom : ∀ label, l.edgesFrom label = (edges.filter fun edge => edge.1 = label).map Prod.snd
  edgeCount : l.edgeCount = edges.length

theorem Holds.addNode {edges : List (Nat × Nat × Option α)} (h : l.Holds edges) (label : Nat) :
    (l.addNode label).Holds edges where
  edgesFrom other := (edgesFrom_addNode l label other).trans (h.edgesFrom other)
  edgeCount := (edgeCount_addNode l label).trans h.edgeCount

theorem Holds.attach {edges : List (Nat × Nat × Option α)} (h : l.Holds edges) {source : Nat}
    (known : source ∈ l.ids.labels.toList) (target : Nat) (weight : Option α) :
    (l.attach source target weight).Holds (edges ++ [(source, target, weight)]) where
  edgesFrom label := by
    rw [edgesFrom_attach known, h.edgesFrom, List.filter_append, List.map_append]
    by_cases same : source = label <;> simp [same]
  edgeCount := by
    rw [edgeCount_attach known, h.edgeCount, List.length_append, List.length_singleton]

theorem Holds.declare {edges : List (Nat × Nat × Option α)} (h : l.Holds edges) (declaration : Declaration α) :
    (l.declare declaration).Holds (edges ++ declaration.edge?.toList) := by
  cases declaration with
  | node label =>
    rw [Declaration.edge?, Option.toList_none, List.append_nil]
    exact h.addNode label
  | edge source target weight =>
    have known := mem_labels_addNode_of_mem (mem_labels_addNode l source) target
    exact ((h.addNode source).addNode target).attach known target weight
  | dangling source target => exact (h.addNode source).attach (mem_labels_addNode l source) target none

theorem holds_empty : (empty : EdgeList α).Holds [] where
  edgesFrom _ := edgesFrom_of_not_mem List.not_mem_nil
  edgeCount := rfl

/-- The edges of an edge list are those of its declarations, in order. -/
theorem holds_declareAll (declarations : List (Declaration α)) :
    (declareAll declarations).Holds (declarations.filterMap Declaration.edge?) := by
  induction declarations using List.reverseRecOn with
  | nil => exact holds_empty
  | append_singleton declarations declaration ih =>
    rw [declareAll, List.foldl_append, List.filterMap_append]
    exact ih.declare declaration

end EdgeList

/-! ## Loads -/

namespace Loading

variable {α : Type} [Scalar α] {storage : Storage} {settings : LoadSettings α} {source : Source α}

omit [Scalar α] in
theorem checkCapacity_ne_duplicateNode (what : String) (requested label : Nat) :
    checkCapacity storage what requested ≠ .error (.duplicateNode label) := by
  unfold checkCapacity capacityError
  split <;> rintro ⟨⟩

omit [Scalar α] in
theorem checkRows_ne_duplicateNode {ids : IdMap} (rows : List (Fin ids.size × List (Link ids.size α)))
    (total label : Nat) : checkRows settings storage ids total rows ≠ .error (.duplicateNode label) := by
  induction rows generalizing total with
  | nil => rintro ⟨⟩
  | cons entry rest ih =>
    rw [checkRows]
    split
    · rintro ⟨⟩
    · intro failed
      rcases bind_eq_error failed with full | ⟨_, -, later⟩
      · exact checkCapacity_ne_duplicateNode _ _ _ full
      · exact ih _ later

theorem validate_ne_duplicateNode (label : Nat) : settings.validate ≠ .error (.duplicateNode label) := by
  unfold LoadSettings.validate
  split
  · rintro ⟨⟩
  · split <;> rintro ⟨⟩

/-- A label is met twice only if the source lists it twice. -/
theorem loadInto_ne_duplicateNode (distinct : source.nodes.Nodup) (label : Nat) :
    loadInto storage settings source ≠ .error (.duplicateNode label) := by
  obtain ⟨ids, numbered, -⟩ := IdMap.exists_ofList distinct
  intro failed
  -- Of the steps of a load, only the numbering refuses labels.
  rcases bind_eq_error failed with full | ⟨_, -, failed⟩
  · exact checkCapacity_ne_duplicateNode _ _ _ full
  rcases bind_eq_error failed with unusable | ⟨_, -, failed⟩
  · exact validate_ne_duplicateNode _ unusable
  rw [numbered] at failed
  rcases bind_eq_error failed with ⟨⟨⟩⟩ | ⟨_, -, failed⟩
  rcases bind_eq_error failed with full | ⟨_, -, failed⟩
  · exact checkCapacity_ne_duplicateNode _ _ _ full
  rcases bind_eq_error failed with refused | ⟨_, -, ⟨⟩⟩
  exact checkRows_ne_duplicateNode _ _ _ refused

/-- A load has met no label twice, and a graph numbers these labels. -/
def NumbersAll (labels : List Nat) : Except Error (Graph α) → Prop
  | .error e => ∀ label, e ≠ .duplicateNode label
  | .ok g => g.ids.Numbers labels

theorem numbersAll_loadInto (storage : Storage) (settings : LoadSettings α) (distinct : source.nodes.Nodup) :
    NumbersAll source.nodes (loadInto storage settings source) := by
  cases loaded : loadInto storage settings source with
  | error e =>
    rintro label rfl
    exact loadInto_ne_duplicateNode distinct label loaded
  | ok g => exact IdMap.numbers_of_labels (stored_of_loadInto loaded).listed

/-- Labels and edges are kept in the order of their declaration. Labels that are added get their numbers in the order in
which each came first, and keep them; a refused one changes nothing. An edge list lists the labels that its
declarations name, each once, and the edges of each of them. Loading it meets no label twice, and numbers the labels
as they were declared. -/
theorem declared_in_order (labels : List Nat) (declarations : List (Declaration α)) :
    let m := IdMap.empty.assignAll labels
    let l := EdgeList.declareAll declarations
    let declared := (declarations.flatMap Declaration.labels).eraseDups
    let edges := declarations.filterMap Declaration.edge?
    m.Numbers labels.eraseDups
      ∧ (∀ label, if label ∈ labels then m.assign label = (m, .error (.duplicateNode label))
        else (m.assign label).2 = .ok m.size)
      ∧ (∀ label node, m.number? label = some node ↔ ∃ before after, labels = before ++ label :: after
        ∧ ((IdMap.empty.assignAll before).assign label).2 = .ok node)
      ∧ l.toSource.nodes = declared ∧ declared.Nodup ∧ l.toSource.declared = declared.length
      ∧ (∀ label, l.toSource.relationships label = (edges.filter fun edge => edge.1 = label).map Prod.snd)
      ∧ (∀ label ∉ declared, l.toSource.relationships label = [])
      ∧ l.edgeCount = edges.length
      ∧ (∀ storage settings, NumbersAll declared (loadInto storage settings l.toSource))
      ∧ ∀ settings, NumbersAll declared (load settings l.toSource) := by
  intro m l declared edges
  have listed : l.ids.labels.toList = declared := by
    rw [EdgeList.ids_declareAll, IdMap.labels_assignAll]
  have numbered := IdMap.numbers_of_labels listed
  have held := EdgeList.holds_declareAll declarations
  have distinct : l.toSource.nodes.Nodup := l.ids.nodup_labels
  refine ⟨IdMap.numbers_of_labels (IdMap.labels_assignAll labels), IdMap.assign_assignAll labels,
    fun label node => IdMap.number?_assignAll_eq_some_iff, listed, numbered.distinct, numbered.size, held.edgesFrom,
    ?_, held.edgeCount, ?_, ?_⟩
  · intro label unknown
    exact EdgeList.edgesFrom_of_not_mem (listed ▸ unknown)
  · intro storage settings
    exact listed ▸ numbersAll_loadInto storage settings distinct
  · intro settings
    obtain ⟨storage, same⟩ := exists_load_eq settings l.toSource
    rw [same]
    exact listed ▸ numbersAll_loadInto storage settings distinct

end Loading

end NetworkAnalysis
