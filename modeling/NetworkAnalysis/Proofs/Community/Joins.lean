import NetworkAnalysis.Community.Level
import NetworkAnalysis.Proofs.LoadedGraph
import NetworkAnalysis.Proofs.Sorting

/-!
# Which nodes a level joins

A community is a candidate for a node where the row of the node has an entry for it, whatever the entry weighs:
also where all entries for it together weigh nothing. The matrix of a level therefore does not say which candidates
there are, and what it leaves out is stated here, for any arithmetic. The level of a graph joins the ends of
relationships, and a coarse level joins two communities exactly if the finer level joins members of them.
-/

namespace NetworkAnalysis.Community

variable {n k : Nat} {α : Type} [Scalar α]

/-- What one step gives and every step keeps holds after a run over a list in which that step is taken. -/
theorem foldl_of_mem {σ β : Type} {step : σ → β → σ} (P : σ → Prop) {x : β} {list : List β}
    (keeps : ∀ state y, P state → P (step state y)) (gives : ∀ state, P (step state x)) (member : x ∈ list)
    (state : σ) : P (list.foldl step state) := by
  obtain ⟨before, after, rfl⟩ := List.append_of_mem member
  rw [List.foldl_append, List.foldl_cons]
  exact List.foldlRecOn after step (gives _) fun state holds y _ => keeps state y holds

/-- What holds after a run over a list held before it, or is due to one of the steps. -/
theorem of_foldl {σ β : Type} {step : σ → β → σ} {P : σ → Prop} {Q : β → Prop}
    (due : ∀ state y, P (step state y) → P state ∨ Q y) {list : List β} {state : σ}
    (holds : P (list.foldl step state)) : P state ∨ ∃ y ∈ list, Q y := by
  induction list generalizing state with
  | nil => exact .inl holds
  | cons x rest ih =>
    rcases ih holds with next | ⟨y, later, given⟩
    · rcases due state x next with before | given
      · exact .inl before
      · exact .inr ⟨x, List.mem_cons_self, given⟩
    · exact .inr ⟨y, List.mem_cons_of_mem _ later, given⟩

namespace Level

/-- The row of a node has an entry for another. -/
def Joins (level : Level n α) (u v : Fin n) : Prop :=
  ∃ entry ∈ level.rows[u], entry.1 = v

/-! ## Merged rows -/

theorem exists_mem_mergeRuns {entries : List (Fin k × α)} {entry : Fin k × α} (member : entry ∈ entries) :
    ∃ merged ∈ mergeRuns entries, merged.1 = entry.1 := by
  fun_induction mergeRuns entries generalizing entry with
  | case1 => cases member
  | case2 single => exact ⟨entry, member, rfl⟩
  | case3 weight target next rest ih =>
    obtain ⟨merged, inside, same⟩ := ih (List.mem_cons_self (a := (target, weight + next)))
    rcases List.mem_cons.1 member with rfl | later
    · exact ⟨merged, inside, same⟩
    · rcases List.mem_cons.1 later with rfl | last
      · exact ⟨merged, inside, same⟩
      · exact ih (List.mem_cons_of_mem _ last)
  | case4 d weight e next rest other ih =>
    rcases List.mem_cons.1 member with rfl | later
    · exact ⟨_, List.mem_cons_self, rfl⟩
    · obtain ⟨merged, inside, target⟩ := ih later
      exact ⟨merged, List.mem_cons_of_mem _ inside, target⟩

theorem exists_of_mem_mergeRuns {entries : List (Fin k × α)} {entry : Fin k × α}
    (member : entry ∈ mergeRuns entries) : ∃ original ∈ entries, original.1 = entry.1 := by
  fun_induction mergeRuns entries with
  | case1 => exact ⟨entry, member, rfl⟩
  | case2 single => exact ⟨entry, member, rfl⟩
  | case3 weight target next rest ih =>
    obtain ⟨original, inside, target⟩ := ih member
    rcases List.mem_cons.1 inside with rfl | later
    · exact ⟨_, List.mem_cons_self, target⟩
    · exact ⟨original, List.mem_cons_of_mem _ (List.mem_cons_of_mem _ later), target⟩
  | case4 d weight e next rest other ih =>
    rcases List.mem_cons.1 member with rfl | later
    · exact ⟨_, List.mem_cons_self, rfl⟩
    · obtain ⟨original, inside, target⟩ := ih later
      exact ⟨original, List.mem_cons_of_mem _ inside, target⟩

/-- A merged row has entries for the same nodes. -/
theorem exists_mem_mergeRow_iff {entries : List (Fin k × α)} {d : Fin k} :
    (∃ merged ∈ mergeRow entries, merged.1 = d) ↔ ∃ entry ∈ entries, entry.1 = d := by
  have sorted : ∀ entry : Fin k × α,
      entry ∈ Sorting.introsort (fun a b => a.1 < b.1) entries ↔ entry ∈ entries :=
    fun entry => (Sorting.perm_introsort _ entries).mem_iff
  constructor
  · rintro ⟨merged, member, rfl⟩
    obtain ⟨original, inside, target⟩ := exists_of_mem_mergeRuns member
    exact ⟨original, (sorted original).1 inside, target⟩
  · rintro ⟨entry, member, rfl⟩
    exact exists_mem_mergeRuns ((sorted entry).2 member)

/-! ## Coarse levels -/

namespace Bundle

/-- The bundle of a community has an entry for another. -/
def Joins (b : Bundle k α) (c d : Fin k) : Prop :=
  ∃ entry ∈ b.outside[c], entry.1 = d

variable (community : Table n (Fin k)) {b : Bundle k α} {c d : Fin k}

/-- No entry gets lost. -/
theorem Joins.addEntry (h : b.Joins c d) (e : Fin k) (entry : Fin n × α) :
    (b.addEntry community e entry).Joins c d := by
  rw [Bundle.addEntry]
  split
  · exact h
  · obtain ⟨original, inside, target⟩ := h
    refine ⟨original, ?_, target⟩
    rw [addOutside, Table.getElem_set]
    split
    · next here =>
      subst here
      exact List.mem_cons_of_mem _ inside
    · exact inside

/-- An entry for another community is kept. -/
theorem joins_addEntry (b : Bundle k α) {e : Fin k} {entry : Fin n × α} (apart : community[entry.1] ≠ e) :
    (b.addEntry community e entry).Joins e community[entry.1] := by
  refine ⟨(community[entry.1], entry.2), ?_, rfl⟩
  rw [addEntry, if_neg apart, addOutside, Table.getElem_set_self]
  exact List.mem_cons_self

theorem Joins.addNode (h : b.Joins c d) (level : Level n α) (node : Fin n) :
    (b.addNode level community node).Joins c d := by
  have start : (b.addInside community[node] level.selfLoops[node]).Joins c d := h
  exact List.foldlRecOn (motive := fun b : Bundle k α => b.Joins c d) level.rows[node] _ start
    fun _ joins entry _ => joins.addEntry community _ entry

theorem joins_addNode (b : Bundle k α) (level : Level n α) {u v : Fin n} (joins : level.Joins u v)
    (apart : community[v] ≠ community[u]) : (b.addNode level community u).Joins community[u] community[v] := by
  obtain ⟨entry, inside, rfl⟩ := joins
  exact foldl_of_mem (fun b : Bundle k α => b.Joins community[u] community[entry.1])
    (fun _ other joins => joins.addEntry community _ other) (fun b => joins_addEntry community b apart) inside _

/-- An entry that was not there before leads from the community at hand to another one. -/
theorem Joins.of_addEntry {e : Fin k} {entry : Fin n × α} (h : (b.addEntry community e entry).Joins c d) :
    b.Joins c d ∨ d ≠ c ∧ e = c ∧ community[entry.1] = d := by
  rw [Bundle.addEntry] at h
  split at h
  · exact .inl h
  · next apart =>
    obtain ⟨original, inside, target⟩ := h
    rw [addOutside, Table.getElem_set] at inside
    split at inside
    · next here =>
      rcases List.mem_cons.1 inside with rfl | earlier
      · have there : community[entry.1] = d := target
        rw [here, there] at apart
        exact .inr ⟨apart, here, there⟩
      · exact .inl ⟨original, here ▸ earlier, target⟩
    · exact .inl ⟨original, inside, target⟩

theorem Joins.of_addNode {level : Level n α} {u : Fin n} (h : (b.addNode level community u).Joins c d) :
    b.Joins c d ∨ d ≠ c ∧ ∃ v, level.Joins u v ∧ community[u] = c ∧ community[v] = d := by
  rw [Bundle.addNode] at h
  have due := of_foldl (P := fun b : Bundle k α => b.Joins c d)
    (Q := fun entry => d ≠ c ∧ community[u] = c ∧ community[entry.1] = d)
    (fun _ _ joins => joins.of_addEntry community) h
  rcases due with before | ⟨entry, inside, apart, here, there⟩
  · exact .inl before
  · exact .inr ⟨apart, entry.1, ⟨entry, inside, rfl⟩, here, there⟩

end Bundle

/-- A coarse level joins different communities exactly if the finer level joins nodes of them. -/
theorem joins_coarsen_iff {level : Level n α} {community : Table n (Fin k)} {c d : Fin k} :
    (level.coarsen community).Joins c d
      ↔ d ≠ c ∧ ∃ u v, level.Joins u v ∧ community[u] = c ∧ community[v] = d := by
  let bundle : Bundle k α := (List.finRange n).foldl (Bundle.addNode level community) .empty
  have row : (level.coarsen community).Joins c d ↔ bundle.Joins c d := by
    simp only [Joins, coarsen, ofRows, Table.getElem_map, Table.getElem_ofFn]
    rw [exists_mem_mergeRow_iff]
    simp only [List.mem_reverse]
    rfl
  rw [row]
  constructor
  · intro joins
    have due := of_foldl (P := fun b : Bundle k α => b.Joins c d)
      (Q := fun u => d ≠ c ∧ ∃ v, level.Joins u v ∧ community[u] = c ∧ community[v] = d)
      (fun _ _ joins => joins.of_addNode community) joins
    rcases due with ⟨entry, inside, -⟩ | ⟨u, -, apart, v, joined, here, there⟩
    · simp [Bundle.empty] at inside
    · exact ⟨apart, u, v, joined, here, there⟩
  · rintro ⟨apart, u, v, joined, rfl, rfl⟩
    exact foldl_of_mem (fun b : Bundle k α => b.Joins community[u] community[v])
      (fun _ node joins => joins.addNode community level node)
      (fun b => Bundle.joins_addNode community b level joined apart) (List.mem_finRange u) .empty

theorem loopless_coarsen (level : Level n α) (community : Table n (Fin k)) (c : Fin k) :
    ∀ entry ∈ (level.coarsen community).rows[c], entry.1 ≠ c :=
  fun entry member => (joins_coarsen_iff.1 ⟨entry, member, rfl⟩).1

/-! ## The level of a graph -/

/-- The level of a network joins different nodes if a step leads from one to the other. -/
theorem joins_ofNetwork {steps : Network n α} {u v : Fin n} :
    (ofNetwork steps).Joins u v ↔ v ≠ u ∧ ∃ step ∈ steps u, step.1 = v := by
  have row : (ofNetwork steps).rows[u] = (steps u).filter fun step => step.1 ≠ u := by
    simp only [ofNetwork, ofRows, splitRow, Table.getElem_map, Table.getElem_ofFn]
  simp only [Joins, row, List.mem_filter, decide_eq_true_eq]
  constructor
  · rintro ⟨step, ⟨listed, other⟩, rfl⟩
    exact ⟨other, step, listed, rfl⟩
  · rintro ⟨other, step, listed, rfl⟩
    exact ⟨step, ⟨listed, other⟩, rfl⟩

/-- The level of a graph joins different nodes if a relationship connects them, whichever way it leads. -/
theorem joins_ofGraph {g : Graph α} {weighted : Bool} {u v : Fin g.size} :
    (ofGraph g weighted).Joins u v ↔ v ≠ u ∧ v ∈ g.neighbours .both u := by
  have step : ∀ value : Relationship g.size → α,
      (∃ step ∈ (g.relationships u .both).map fun r => (r.other, value r), step.1 = v)
        ↔ v ∈ g.neighbours .both u := by
    intro value
    simp only [Graph.neighbours, List.mem_map, exists_exists_and_eq_and]
  unfold ofGraph
  split
  · rw [joins_ofNetwork]
    exact and_congr_right fun _ => step fun r => g.weight r.id
  · have counted := step fun _ => Scalar.one
    rw [joins_ofNetwork, ← counted, Graph.neighbours, List.map_map]
    rfl

end Level

end NetworkAnalysis.Community

namespace NetworkAnalysis.Graph

open Community.Level

variable {α : Type} [Scalar α] {g : Graph α}

/-- A relationship that enters a node is one that leaves the node at its other end. -/
theorem Loaded.mem_neighbours_both_iff (loaded : g.Loaded) {u v : Fin g.size} :
    v ∈ g.neighbours .both u ↔ v ∈ g.neighbours .outgoing u ∨ u ∈ g.neighbours .outgoing v := by
  obtain ⟨storage, settings, source, loaded⟩ := loaded
  have shows := (Loading.stored_of_loadInto loaded).shows
  have arrives : (∃ r ∈ g.relationships u .incoming, r.other = v) ↔ u ∈ g.neighbours .outgoing v := by
    simp only [shows.relationships_incoming, shows.arriving_eq_arrivals, arrivals, neighbours, List.mem_flatMap,
      List.mem_map, List.mem_filter, List.mem_finRange, true_and, decide_eq_true_eq]
    constructor
    · rintro ⟨_, ⟨source, r, ⟨listed, target⟩, rfl⟩, rfl⟩
      exact ⟨r, listed, target⟩
    · rintro ⟨r, listed, target⟩
      exact ⟨_, ⟨v, r, ⟨listed, target⟩, rfl⟩, rfl⟩
  rw [← arrives]
  simp only [neighbours, shows.relationships_both, List.mem_map, List.mem_append, or_and_right, exists_or]

/-- The level of a loaded graph joins different nodes if a relationship leads from one of them to the other. -/
theorem Loaded.joins_level_iff (loaded : g.Loaded) (weighted : Bool) {u v : Fin g.size} :
    (ofGraph g weighted).Joins u v
      ↔ v ≠ u ∧ (v ∈ g.neighbours .outgoing u ∨ u ∈ g.neighbours .outgoing v) := by
  rw [joins_ofGraph, loaded.mem_neighbours_both_iff]

end NetworkAnalysis.Graph
