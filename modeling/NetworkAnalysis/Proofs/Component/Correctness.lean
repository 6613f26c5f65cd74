import NetworkAnalysis.Component.Partition
import NetworkAnalysis.Proofs.Component.Run
import NetworkAnalysis.Proofs.Rows

/-!
# The strongly connected components

A search that is never told to stop assigns every node a component. Two nodes are in one component exactly
if each can be reached from the other, the components are numbered from zero on without gaps, and a
relationship between two components leads to the one with the smaller number. The counts and the lists of
members that come with the result describe the same partition.
-/

namespace NetworkAnalysis.Component

variable {n : Nat} {neighbours : Fin n → List (Fin n)}

/-! ## Sizes -/

namespace Partition

theorem size_countIn (sizes : Array Nat) (component : Nat) :
    (countIn sizes component).size = max sizes.size (component + 1) := by
  simp only [countIn, Array.size_modify, Array.size_append, Array.size_replicate]
  omega

theorem getD_countIn (sizes : Array Nat) (component other : Nat) :
    (countIn sizes component)[other]?.getD 0
      = sizes[other]?.getD 0 + if component = other then 1 else 0 := by
  simp only [countIn, Array.getElem?_modify, Array.getElem?_append, Array.getElem?_replicate]
  by_cases same : component = other
  · subst same
    by_cases inside : component < sizes.size
    · simp [inside]
    · have room : component - sizes.size < component + 1 - sizes.size := by omega
      simp [inside, room]
  · by_cases inside : other < sizes.size
    · simp [same, inside]
    · simp only [if_neg same, if_neg inside, Array.getElem?_eq_none (Nat.le_of_not_lt inside)]
      split <;> rfl

/-- A component has as many nodes as it occurs in the list. -/
theorem getD_foldl_countIn (components : List Nat) (sizes : Array Nat) (component : Nat) :
    (components.foldl countIn sizes)[component]?.getD 0
      = sizes[component]?.getD 0 + components.count component := by
  induction components generalizing sizes with
  | nil => rfl
  | cons first rest ih =>
    rw [List.foldl_cons, ih, getD_countIn, List.count_cons, Nat.add_assoc, Nat.add_comm (List.count _ _)]
    simp

theorem lt_size_foldl_countIn (components : List Nat) (sizes : Array Nat) (component : Nat) :
    component < (components.foldl countIn sizes).size
      ↔ component < sizes.size ∨ ∃ c ∈ components, component ≤ c := by
  induction components generalizing sizes with
  | nil => simp
  | cons first rest ih =>
    have either : component < max sizes.size (first + 1)
        ↔ component < sizes.size ∨ component ≤ first := by omega
    rw [List.foldl_cons, ih, size_countIn, either, or_assoc]
    simp only [List.mem_cons, exists_eq_or_imp]

theorem components_toList (components : Table n (Option Nat)) :
    components.toList = (List.finRange n).map fun v => components[v] := by
  refine List.ext_getElem (by simp) fun i _ _ => ?_
  rw [Table.getElem_toList, List.getElem_map, List.getElem_finRange]
  rfl

theorem mem_filterMap_toList {components : Table n (Option Nat)} {c : Nat} :
    c ∈ components.toList.filterMap id ↔ ∃ v : Fin n, components[v] = some c := by
  simp [components_toList, List.mem_filterMap]

/-- The sizes are the numbers of members. -/
theorem sizes_ofComponents {components : Table n (Option Nat)} {count : Nat}
    (used : ∀ c, (∃ v : Fin n, components[v] = some c) ↔ c < count) :
    (ofComponents components).sizes.toList
      = (List.range count).map fun c => ((ofComponents components).members c).length := by
  have size : (ofComponents components).sizes.size = count := by
    refine Nat.le_antisymm ?_ ?_ <;> refine Nat.le_of_not_lt fun less => ?_
    · obtain none | ⟨c, member, above⟩ :=
        (lt_size_foldl_countIn (components.toList.filterMap id) #[] count).1 less
      · cases none
      · exact Nat.not_lt.2 above ((used c).1 (mem_filterMap_toList.1 member))
    · refine Nat.lt_irrefl _ ((lt_size_foldl_countIn (components.toList.filterMap id) #[] _).2 (.inr ?_))
      exact ⟨_, mem_filterMap_toList.2 ((used _).2 less), Nat.le_refl _⟩
  refine List.ext_getElem (by simp [size]) fun c inside _ => ?_
  have counted := getD_foldl_countIn (components.toList.filterMap id) #[] c
  rw [Array.length_toList] at inside
  rw [List.getElem_map, List.getElem_range, Array.getElem_toList]
  have here : (ofComponents components).sizes[c] = (components.toList.filterMap id).count c := by
    rw [← Option.getD_some (a := (ofComponents components).sizes[c]) (b := 0),
      ← Array.getElem?_eq_getElem inside]
    exact counted.trans (Nat.zero_add _)
  rw [here, members, components_toList, List.filterMap_map, List.count_eq_countP, List.countP_filterMap,
    ← List.countP_eq_length_filter]
  refine List.countP_congr fun v _ => ?_
  show _ ↔ (components[v] == some c) = true
  rcases its : components[v] with _ | d <;> simp [its]

/-! ## The result -/

/-- The components of a result are the strongly connected ones, and its figures describe them. -/
structure Describes (p : Partition n) (neighbours : Fin n → List (Fin n)) : Prop where
  /-- Every node has a component. -/
  assigned : ∀ v : Fin n, ∃ c, p.component? v = some c
  /-- Nodes are in one component exactly if each can be reached from the other. -/
  same : ∀ u v : Fin n,
    p.component? u = p.component? v ↔ Reaches neighbours u v ∧ Reaches neighbours v u
  /-- The components are numbered without gaps. -/
  ids : ∀ c, (∃ v : Fin n, p.component? v = some c) ↔ c < p.count
  /-- A relationship to another component leads to a smaller number. -/
  topological : ∀ (u v : Fin n) (c d : Nat), v ∈ neighbours u → p.component? u = some c →
    p.component? v = some d → c ≠ d → d < c
  /-- The members of a component are its nodes. -/
  mem_members : ∀ (c : Nat) (v : Fin n), v ∈ p.members c ↔ p.component? v = some c
  /-- Members are listed in the order of their numbers, and each once. -/
  sorted : ∀ c, (p.members c).Pairwise (· < ·)
  /-- Without components both figures are zero. -/
  empty : p.count = 0 → p.minSize = 0 ∧ p.maxSize = 0
  /-- The smallest size is that of a component, and no component is smaller. -/
  minSize : p.count ≠ 0 → (∃ c < p.count, (p.members c).length = p.minSize)
    ∧ ∀ c < p.count, p.minSize ≤ (p.members c).length
  /-- The largest size is that of a component, and no component is larger. -/
  maxSize : p.count ≠ 0 → (∃ c < p.count, (p.members c).length = p.maxSize)
    ∧ ∀ c < p.count, (p.members c).length ≤ p.maxSize

theorem component?_ofComponents (components : Table n (Option Nat)) (v : Fin n) :
    (ofComponents components).component? v = components[v] := by
  simp [component?, ofComponents, Table.get?]

end Partition

/-- Where components are closed, nothing but earlier components can be reached from a component. -/
theorem Search.Closed.le_of_reaches {s : Search n} (h : s.Closed neighbours) {u v : Fin n}
    (reach : Reaches neighbours u v) {c : Nat} (its : s.components[u] = some c) :
    ∃ d, s.components[v] = some d ∧ d ≤ c := by
  induction reach with
  | refl => exact ⟨c, its, Nat.le_refl _⟩
  | tail _ leads ih =>
    obtain ⟨d, itsMiddle, le⟩ := ih
    obtain ⟨e, itsEnd, le'⟩ := h.leads _ d itsMiddle _ leads
    exact ⟨e, itsEnd, Nat.le_trans le' le⟩

/-- Two nodes of which one has a closed component are in one component exactly if each reaches the other. -/
theorem Search.Closed.same_iff {s : Search n} (h : s.Closed neighbours) {u v : Fin n} {c : Nat}
    (its : s.components[u] = some c) :
    s.components[u] = s.components[v] ↔ Reaches neighbours u v ∧ Reaches neighbours v u := by
  constructor
  · intro same
    exact ⟨h.connected u v c its (same ▸ its), h.connected v u c (same ▸ its) its⟩
  · rintro ⟨there, back⟩
    obtain ⟨d, itsOther, le⟩ := h.le_of_reaches there its
    obtain ⟨c', its', le'⟩ := h.le_of_reaches back itsOther
    obtain rfl : c' = c := Option.some.inj (its'.symm.trans its)
    rw [its, itsOther, Nat.le_antisymm le' le]

/-- The components of a search that is over are those that a partition describes, and its sizes are the numbers of their
members. -/
theorem Search.Solved.describes {s : Search n} (h : s.Solved neighbours) :
    (Partition.ofComponents s.components).Describes neighbours := by
  have its := Partition.component?_ofComponents s.components
  have sizes := Partition.sizes_ofComponents h.used
  have count : (Partition.ofComponents s.components).count = s.componentCount := by
    rw [Partition.count, ← Array.length_toList, sizes, List.length_map, List.length_range]
  have size_iff : ∀ size, size ∈ (Partition.ofComponents s.components).sizes.toList
      ↔ ∃ c < s.componentCount, ((Partition.ofComponents s.components).members c).length = size := by
    intro size
    rw [sizes]
    simp
  have filled : (Partition.ofComponents s.components).count ≠ 0 →
      (Partition.ofComponents s.components).sizes.toList ≠ [] := fun used nil =>
    used (congrArg List.length nil)
  constructor
  case assigned =>
    intro v
    rw [its]
    exact h.assigned v
  case same =>
    intro u v
    rw [its, its]
    obtain ⟨c, itsU⟩ := h.assigned u
    exact h.same_iff itsU
  case ids =>
    intro c
    simp only [its, count]
    exact h.used c
  case topological =>
    intro u v c d neighbour itsU itsV other
    rw [its] at itsU itsV
    obtain ⟨d', itsV', le⟩ := h.leads u c itsU v neighbour
    obtain rfl : d' = d := Option.some.inj (itsV'.symm.trans itsV)
    exact Nat.lt_of_le_of_ne le other.symm
  case mem_members =>
    intro c v
    rw [its]
    simp [Partition.members, Partition.ofComponents]
  case sorted =>
    intro c
    exact (List.pairwise_lt_finRange n).sublist List.filter_sublist
  case empty =>
    intro zero
    have nil : (Partition.ofComponents s.components).sizes.toList = [] :=
      List.eq_nil_of_length_eq_zero zero
    rw [Partition.minSize, Partition.maxSize, nil]
    exact ⟨rfl, rfl⟩
  case minSize =>
    intro occupied
    have least := List.min?_eq_some_min (filled occupied)
    obtain ⟨member, below⟩ := List.min?_eq_some_iff.1 least
    rw [Partition.minSize, least, Option.getD_some, count]
    exact ⟨(size_iff _).1 member, fun c used => below _ ((size_iff _).2 ⟨c, used, rfl⟩)⟩
  case maxSize =>
    intro occupied
    have largest := List.max?_eq_some_max (filled occupied)
    obtain ⟨member, above⟩ := List.max?_eq_some_iff.1 largest
    rw [Partition.maxSize, largest, Option.getD_some, count]
    exact ⟨(size_iff _).1 member, fun c used => above _ ((size_iff _).2 ⟨c, used, rfl⟩)⟩

/-- A search that is never told to stop finds the strongly connected components of a graph. -/
theorem compute_describes {α : Type} [Scalar α] (g : Graph α) :
    (compute g .always).completed = true
      ∧ (compute g .always).value.Describes (g.neighbours .outgoing) :=
  ⟨Search.roots_always _ _ _ _, (Search.solved_roots α _ #[]).describes⟩

end NetworkAnalysis.Component
