import NetworkAnalysis.Proofs.LoadSuccess

/-!
# Both storages hold the same graph

A source that loads into both storages loads the same graph into them, up to the order of the
relationships that leave a node: packed rows are the flat ones, sorted by target and otherwise in order.
Each weight follows its relationship through the sort, the encoding and the transposition, although the
relationships have other ids afterwards.
-/

namespace NetworkAnalysis

variable {α : Type} [Scalar α]

/-- A link by its far end and its weight after a load. -/
def Link.seen {n : Nat} (settings : LoadSettings α) (link : Link n α) : Nat × Option α :=
  (link.target.val, some (link.value settings))

namespace Graph

/-- The relationships of a node by their far ends and their weights. -/
def ends (g : Graph α) (node : Fin g.size) (direction : Direction) : List (Nat × Option α) :=
  (g.relationships node direction).map fun relationship =>
    (relationship.other.val, g.weight? relationship.id)

/-- The list sorted by far ends; equal ones stay in order. -/
def sortedByEnd (ends : List (Nat × Option α)) : List (Nat × Option α) :=
  ends.mergeSort fun a b => a.1 ≤ b.1

/-- The second graph holds the same relationships as the first, its outgoing lists sorted by target. -/
structure Resorted (flat packed : Graph α) : Prop where
  /-- The nodes have the same labels. -/
  ids : packed.ids = flat.ids
  /-- There are as many nodes. -/
  nodeCount : packed.size = flat.size
  /-- There are as many relationships. -/
  relationshipCount : packed.relationshipCount = flat.relationshipCount
  /-- Both have weights, or none has. -/
  weighted : packed.weighted = flat.weighted
  /-- Nodes have the same degrees in every direction. -/
  degree : ∀ (node : Nat) (bound : node < flat.size) (bound' : node < packed.size)
    (direction : Direction), packed.degree ⟨node, bound'⟩ direction = flat.degree ⟨node, bound⟩ direction
  /-- What leaves a node is the same, sorted by target. -/
  outgoing : ∀ (node : Nat) (bound : node < flat.size) (bound' : node < packed.size),
    packed.ends ⟨node, bound'⟩ .outgoing = sortedByEnd (flat.ends ⟨node, bound⟩ .outgoing)
  /-- What enters a node is the same, in the same order. -/
  incoming : ∀ (node : Nat) (bound : node < flat.size) (bound' : node < packed.size),
    packed.ends ⟨node, bound'⟩ .incoming = flat.ends ⟨node, bound⟩ .incoming
  /-- No relationship that is listed lacks a weight. -/
  hasWeight : ∀ (node : Fin flat.size) (direction : Direction),
    ∀ far ∈ flat.ends node direction, far.2.isSome
  /-- The weight from a node to another is the same, also if there are several relationships. -/
  weightBetween : ∀ (source : Nat) (bound : source < flat.size) (bound' : source < packed.size)
    (target : Nat), packed.weightBetween? ⟨source, bound'⟩ target
      = flat.weightBetween? ⟨source, bound⟩ target

/-- The weight between two nodes is the weight of the first relationship that leads there. -/
theorem Shows.weightBetween?_eq {g : Graph α} {rows : Table g.size (List (Fin g.size))}
    (h : g.Shows rows) (source : Fin g.size) (target : Nat) :
    g.weightBetween? source target
      = ((g.ends source .outgoing).find? fun far => far.1 = target).map fun far =>
          far.2.getD Scalar.one := by
  have search : ∀ list : List (Relationship g.size),
      (visitList (fun (found : Option α) relationship =>
        if relationship.other.val = target then (some (g.weight relationship.id), false)
        else (found, true)) none list).1
      = (list.find? fun relationship => relationship.other.val = target).map fun relationship =>
          g.weight relationship.id := by
    intro list
    induction list with
    | nil => rfl
    | cons relationship rest ih =>
      by_cases here : relationship.other.val = target
      · simp [visitList, here]
      · simpa [visitList, here] using ih
  rw [weightBetween?, h.visit_eq_visitList, search, ends, h.relationships_eq, List.find?_map,
    Option.map_map]
  rfl

omit [Scalar α] in
theorem length_sortedByEnd (ends : List (Nat × Option α)) :
    (sortedByEnd ends).length = ends.length :=
  List.length_mergeSort ..

end Graph

namespace Loading

variable {storage : Storage} {settings : LoadSettings α} {source : Source α} {g : Graph α}

namespace Stored

theorem ends_outgoing (h : Stored storage settings source g) (node : Fin g.size) :
    g.ends node .outgoing
      = (arrange storage (links source g.ids node)).map (Link.seen settings) :=
  h.map_outgoing node fun other weight => (other.val, weight)

theorem ends_incoming (h : Stored storage settings source g) (node : Fin g.size) :
    g.ends node .incoming
      = (List.finRange g.size).flatMap fun start =>
          ((links source g.ids start).filter fun link => link.target = node).map fun link =>
            (start.val, some (link.value settings)) :=
  h.map_incoming node fun other weight => (other.val, weight)

theorem isSome_of_mem_ends (h : Stored storage settings source g) (node : Fin g.size)
    (direction : Direction) {far : Nat × Option α} (member : far ∈ g.ends node direction) :
    far.2.isSome := by
  have outgoing : ∀ {far}, far ∈ g.ends node .outgoing → far.2.isSome := by
    intro far member
    rw [h.ends_outgoing] at member
    obtain ⟨link, _, rfl⟩ := List.mem_map.1 member
    rfl
  have incoming : ∀ {far}, far ∈ g.ends node .incoming → far.2.isSome := by
    intro far member
    rw [h.ends_incoming] at member
    obtain ⟨start, _, member⟩ := List.mem_flatMap.1 member
    obtain ⟨link, _, rfl⟩ := List.mem_map.1 member
    rfl
  cases direction with
  | outgoing => exact outgoing member
  | incoming => exact incoming member
  | both =>
    rw [Graph.ends, h.shows.relationships_both, List.map_append, List.mem_append] at member
    exact member.elim outgoing incoming

/-- Degrees count what is listed, in each of the directions that are followed. -/
theorem degree_eq (h : Stored storage settings source g) (node : Fin g.size)
    (direction : Direction) :
    g.degree node direction
      = (if direction.includesOutgoing then (g.ends node .outgoing).length else 0)
        + (if direction.includesIncoming then (g.ends node .incoming).length else 0) := by
  rw [h.shows.degree_eq_length]
  cases direction with
  | outgoing => simp [Graph.ends, Direction.includesOutgoing, Direction.includesIncoming]
  | incoming => simp [Graph.ends, Direction.includesOutgoing, Direction.includesIncoming]
  | both =>
    rw [h.shows.relationships_both]
    simp [Graph.ends, Direction.includesOutgoing, Direction.includesIncoming]

/-- The first link to a target has the weight that is found for it. -/
theorem weightBetween?_eq (h : Stored storage settings source g) (node : Fin g.size) (target : Nat) :
    g.weightBetween? node target
      = ((links source g.ids node).find? fun link => link.target.val = target).map
          (Link.value settings) := by
  rw [h.shows.weightBetween?_eq, h.ends_outgoing, List.find?_map, Option.map_map,
    ← List.head?_filter, ← List.head?_filter]
  rw [filter_arrange storage _ fun here there => ?_]
  · rfl
  · exact Fin.ext ((of_decide_eq_true here).trans (of_decide_eq_true there).symm)

end Stored

theorem sortedByEnd_map_seen {n : Nat} (settings : LoadSettings α) (row : List (Link n α)) :
    Graph.sortedByEnd (row.map (Link.seen settings)) = (arrange .huge row).map (Link.seen settings) := by
  rw [Graph.sortedByEnd, arrange_huge, List.map_mergeSort]
  exact fun _ _ _ _ => rfl

/-- A source that loads into both storages loads the same graph. -/
theorem resorted_of_loadInto {flat packed : Graph α}
    (dense : loadInto .dense settings source = .ok flat)
    (huge : loadInto .huge settings source = .ok packed) : flat.Resorted packed := by
  have inFlat := stored_of_loadInto dense
  have inPacked := stored_of_loadInto huge
  have same : packed.ids = flat.ids := Except.ok.inj (inPacked.ids.symm.trans inFlat.ids)
  obtain ⟨ids, adjacency, weights⟩ := packed
  obtain rfl : ids = flat.ids := same
  have outgoing : ∀ (node : Nat) (bound : node < flat.size),
      Graph.ends ⟨flat.ids, adjacency, weights⟩ ⟨node, bound⟩ .outgoing
        = Graph.sortedByEnd (flat.ends ⟨node, bound⟩ .outgoing) := by
    intro node bound
    rw [inFlat.ends_outgoing, sortedByEnd_map_seen]
    exact inPacked.ends_outgoing ⟨node, bound⟩
  have incoming : ∀ (node : Nat) (bound : node < flat.size),
      Graph.ends ⟨flat.ids, adjacency, weights⟩ ⟨node, bound⟩ .incoming
        = flat.ends ⟨node, bound⟩ .incoming := by
    intro node bound
    rw [inFlat.ends_incoming]
    exact inPacked.ends_incoming ⟨node, bound⟩
  exact
    { ids := rfl
      nodeCount := rfl
      relationshipCount := inPacked.relationshipCount_eq.trans inFlat.relationshipCount_eq.symm
      weighted := inPacked.weighted_eq.trans inFlat.weighted_eq.symm
      degree := by
        intro node bound bound' direction
        rw [inPacked.degree_eq, inFlat.degree_eq, outgoing node bound, incoming node bound,
          Graph.length_sortedByEnd]
      outgoing := fun node bound _ => outgoing node bound
      incoming := fun node bound _ => incoming node bound
      hasWeight := fun node direction _ member => inFlat.isSome_of_mem_ends node direction member
      weightBetween := by
        intro start bound bound' target
        rw [inFlat.weightBetween?_eq]
        exact inPacked.weightBetween?_eq ⟨start, bound⟩ target }

/-- The junctions load into both storages. -/
theorem resorted_junctions : ∃ flat packed : Graph Rat,
    loadInto .dense fiveByDefault junctions = .ok flat
      ∧ loadInto .huge fiveByDefault junctions = .ok packed ∧ flat.Resorted packed := by
  obtain ⟨flat, dense, -⟩ := exists_load_junctions .dense
  obtain ⟨packed, huge, -⟩ := exists_load_junctions .huge
  exact ⟨flat, packed, dense, huge, resorted_of_loadInto dense huge⟩

end Loading

end NetworkAnalysis
