import NetworkAnalysis.Proofs.ShortestPath.Branches

/-!
# Two readings of the cost of the target

`totalCost` reads the cost of the target off the table of costs, and `path` only where the target is settled. The two
differ on a search that is stopped between reaching its target and settling it: then there is no path, but the cost of
the best one so far. Everywhere else they agree, and a path that is not empty has the cost of its steps.
-/

namespace NetworkAnalysis.ShortestPath

open Scalar

variable {n : Nat} {α : Type} [Scalar α] [OrderedCosts α] {steps : Network n α} {source : Fin n}

/-! ## Settled targets -/

namespace Tree

variable {settled : Table n Bool} {order : List (Fin n)} {t : Tree n α}

omit [OrderedCosts α] in
theorem Formed.route (h : t.Formed steps source settled order) {v : Fin n} {nodes : List (Fin n)}
    (back : Back t.predecessors source v nodes) : steps.Route source v nodes t.costs[v] := by
  induction back with
  | source =>
    rw [h.sourceCost]
    exact .start
  | @step v previous nodes link back ih =>
    obtain ⟨-, weight, leads, -, sum⟩ := h.hop v previous link
    rw [sum]
    exact .step ih leads

omit [OrderedCosts α] in
theorem Formed.below_of_settled (h : t.Formed steps source settled order) {v : Fin n} (done : settled[v] = true) :
    Below t.costs[v] unreachable := by
  obtain ⟨nodes, back, -⟩ := h.trail v done
  refine h.below v ?_
  cases back with
  | source => exact .inl rfl
  | step link back => exact .inr (by rw [link]; exact Option.some_ne_none _)

end Tree

omit [OrderedCosts α] in
/-- A run that was not stopped has settled its target, or has not reached it. -/
theorem Search.Formed.target_of_completed {entries : List (Candidate n α)} {s : Search n α} {target : Fin n}
    {query : Option (Fin n)} {result : Search n α × Bool} (h : s.Formed steps source entries)
    (stops : s.Stops query result) (asked : query = some target) (completed : result.2 = true)
    (waits : result.1.settled[target] = false) :
    result.1.tree.costs[target] = unreachable := by
  cases stops with
  | done empty =>
    refine h.formed.unreached target fun found => ?_
    obtain ⟨candidate, there, -⟩ := h.entered.waiting target waits found
    rw [empty] at there
    cases there
  | stopped more => cases completed
  | target least open' itself =>
    obtain rfl := Option.some.inj (asked.symm.trans itself)
    rw [Search.settle, Table.getElem_set_self] at waits
    cases waits

/-! ## Results -/

/-- The cost of the target and the cost of the path to it. -/
structure ShortestPaths.Readings (steps : Network n α) (p : ShortestPaths n α) : Prop where
  /-- They agree unless the target has been reached without being settled. -/
  agree_iff : p.totalCost = p.path.totalCost
    ↔ ∀ target : Fin n, p.target = some target → p.isSettled target = false → p.distance target = unreachable
  /-- The cost of the path says whether there is a path. -/
  unreachable_iff : p.path.totalCost = unreachable ↔ p.path.nodes = []
  /-- The cost of a path is the sum of its weights. -/
  route : ∀ target : Fin n, p.target = some target → p.path.nodes ≠ [] →
    steps.Route p.source target p.path.nodes p.path.totalCost

/-- A target that is settled has a trail back, whose cost is its own. For any other target the path is empty, and all
depends on whether it has been reached. -/
theorem Search.readings_of_formed {s : Search n α} (traced : s.Traced)
    (formed : s.tree.Formed steps source s.settled s.order.toList) (target : Option (Fin n)) :
    ShortestPaths.Readings steps
      { source, target, costs := s.tree.costs, predecessors := s.tree.predecessors, settled := s.settled,
        order := s.order } := by
  cases target with
  | none =>
    refine ⟨⟨fun _ _ asked => ?_, fun _ => rfl⟩, ⟨fun _ => rfl, fun _ => rfl⟩, fun _ asked => ?_⟩
    · cases asked
    · cases asked
  | some target =>
    set p : ShortestPaths n α :=
      { source, target := some target, costs := s.tree.costs, predecessors := s.tree.predecessors,
        settled := s.settled, order := s.order }
    have only : ∀ t : Fin n, p.target = some t → t = target := fun t asked => (Option.some.inj asked).symm
    have total : p.totalCost = s.tree.costs[target] := rfl
    by_cases done : s.settled[target] = true
    · obtain ⟨nodes, back, inOrder⟩ := formed.trail target done
      have path : p.path = ⟨nodes, s.tree.costs[target]⟩ := by
        rw [← ShortestPaths.chain_eq_of_nodup formed.sourceRoot back (traced.nodup.sublist inOrder)]
        exact if_pos done
      rw [← ShortestPaths.isSettled_val p target] at done
      constructor
      case agree_iff =>
        refine ⟨fun _ t asked waits => ?_, fun _ => by rw [total, path]⟩
        rw [only t asked, done] at waits
        cases waits
      case unreachable_iff =>
        rw [path]
        have below := (formed.below_of_settled (ShortestPaths.isSettled_val p target ▸ done)).ne
        exact ⟨fun same => absurd same below, fun pathless => absurd pathless (List.length_pos_iff.1 back.length_pos)⟩
      case route =>
        intro t asked _
        rw [only t asked, path]
        exact formed.route back
    · have path : p.path = .none := if_neg done
      rw [← ShortestPaths.isSettled_val p target, Bool.not_eq_true] at done
      constructor
      case agree_iff =>
        rw [total, path, ← ShortestPaths.distance_val p target]
        refine ⟨fun agree t asked _ => only t asked ▸ agree, fun all => all target rfl done⟩
      case unreachable_iff =>
        rw [path]
        exact ⟨fun _ => rfl, fun _ => rfl⟩
      case route =>
        intro t _ found
        rw [path] at found
        exact absurd rfl found

/-- However a search ends, its two readings of the cost of the target differ where it has reached the target without
settling it, and nowhere else. That happens only if it is stopped. -/
theorem compute_readings {g : Graph α} (loaded : g.Loaded) (query : Query g.size) (watch : Watch) :
    let report := compute g query watch
    report.value.source = query.source ∧ report.value.target = query.target
      ∧ report.value.Readings (g.legs query.direction)
      ∧ (report.completed = true → report.value.totalCost = report.value.path.totalCost) := by
  obtain ⟨storage, settings, origin, loaded⟩ := loaded
  have same := (Loading.stored_of_loadInto loaded).shows.steps_eq_legs query.direction
  obtain ⟨r, reached, stops⟩ :=
    Search.exists_stops_start (g.steps query.direction) query.source query.target watch
  have ended := Search.formed_of_reaches reached
  obtain ⟨traced, formed, -⟩ := ended.of_stops stops
  have readings := Search.readings_of_formed traced formed query.target
  refine ⟨rfl, rfl, same ▸ readings, fun completed => readings.agree_iff.2 ?_⟩
  intro target asked waits
  rw [ShortestPaths.isSettled_val] at waits
  rw [ShortestPaths.distance_val]
  exact ended.target_of_completed stops asked completed waits

/-- Rough weights make no difference. -/
theorem compute_readings_rough : ∃ g : Graph Float, g.Loaded
    ∧ ∀ (query : Query g.size) (watch : Watch),
      (compute g query watch).value.Readings (g.legs query.direction) := by
  obtain ⟨g, loaded⟩ := exists_load_rough
  have isLoaded : g.Loaded := ⟨_, _, _, loaded⟩
  exact ⟨g, isLoaded, fun query watch => (compute_readings isLoaded query watch).2.2.1⟩

/-! ## Where the readings differ -/

omit [OrderedCosts α] in
theorem Tree.Reached.relax {settled : Table n Bool} {t : Tree n α} {v : Fin n} (found : t.Reached source v)
    (node : Fin n) (cost : α) (step : Fin n × α) : (t.relax settled node cost step).Reached source v := by
  rcases relax_cases settled node cost t step with same | ⟨-, reached⟩
  · rwa [same]
  · rw [reached]
    exact reached_reach.2 (.inr found)

section Expanded

variable {settled : Table n Bool} {order : List (Fin n)} {entries : List (Candidate n α)} {t : Tree n α}
  {node v : Fin n} {cost weight : α} (waits : settled[v] = false) (light : ¬unreachable ≤ weight)
  (below : cost + weight < unreachable)

include waits light below

omit [OrderedCosts α] in
theorem Tree.Formed.reached_relax (h : t.Formed steps source settled order) :
    (t.relax settled node cost (v, weight)).Reached source v := by
  rcases relax_spec settled node cost t (v, weight) with ⟨same, -, reason⟩ | ⟨-, -, -, reached, -⟩
  · rw [same]
    by_contra apart
    rcases reason with done | heavy | dearer
    · rw [waits] at done
      cases done
    · exact light heavy
    · rw [h.unreached v apart] at dearer
      exact dearer below
  · rw [reached]
    exact reached_reach.2 (.inl rfl)

/-- A node that waits is reached when the other end of a light enough step to it is expanded. -/
theorem Tree.Growing.reached_expand (h : t.Growing steps source settled order node cost entries)
    (listed : ∀ v ∈ order, settled[v] = true) (opened : settled[source] = true) (here : settled[node] = true)
    (leads : (v, weight) ∈ steps node) : (t.expand steps settled node cost).Reached source v := by
  refine (expand_induction entries (P := fun tried entries t =>
    t.Growing steps source settled order node cost entries ∧ ((v, weight) ∈ tried → t.Reached source v))
    ⟨h, fun outside => absurd outside List.not_mem_nil⟩ ?_).2 leads
  intro tried entries t step member ⟨growing, found⟩
  refine ⟨growing.relax listed opened here member, fun reached => ?_⟩
  rcases List.mem_append.1 reached with before | now
  · exact (found before).relax node cost step
  · obtain rfl := List.mem_singleton.1 now
    exact growing.formed.reached_relax waits light below

end Expanded

/-- A search that may ask only once asks for its source. If it asks again, that stops it. -/
theorem Search.exists_run_budget_one (steps : Network n α) {source target : Fin n} (other : target ≠ source) :
    ∃ rest : Heap (Candidate n α),
      (start source : Search n α).tree.frontier.Least Candidate.before ⟨Scalar.zero, 0, source⟩ rest
        ∧ let expanded := ((start source).settle source rest).expand steps source Scalar.zero
          ((start source).run steps (some target) (.budget 1)).1.tree = expanded.tree
            ∧ ((start source).run steps (some target) (.budget 1)).1.settled = expanded.settled := by
  have only := frontier_start (α := α) source
  rcases popped : (start source : Search n α).tree.frontier.pop? Candidate.before with _ | ⟨candidate, rest⟩
  · rw [Heap.toList_of_pop?_eq_none popped] at only
    cases only
  have least := Heap.least_of_pop? (Tree.arranged_start source) popped
  obtain rfl : candidate = ⟨Scalar.zero, 0, source⟩ := List.mem_singleton.1 (only ▸ least.mem)
  refine ⟨rest, least, ?_⟩
  rw [run_of_pop? popped, if_neg (by simp [Watch.budget, start]), if_neg (settled_start source source),
    if_neg fun same => other (Option.some.inj same)]
  dsimp only
  generalize asked : ((start source).settle source rest).expand steps source Scalar.zero = expanded
  have polls : expanded.polls = 1 := by
    rw [← asked, polls_expand]
    rfl
  rcases more : expanded.tree.frontier.pop? Candidate.before with _ | ⟨next, rest'⟩
  · rw [run_of_pop?_eq_none more]
    exact ⟨rfl, rfl⟩
  · rw [run_of_pop? more, if_pos (by simp [Watch.budget, polls])]
    exact ⟨rfl, rfl⟩

/-- A search that may ask only once knows a way from its source to every neighbour that a light enough step leads to,
but none of them is settled. -/
theorem readings_differ {g : Graph α} (loaded : g.Loaded) {start target : Fin g.size} {direction : Direction}
    {weight : α} (leads : (target, weight) ∈ g.legs direction start) (other : target ≠ start)
    (light : ¬unreachable ≤ weight) (below : Scalar.zero + weight < unreachable) :
    let p := (compute g ⟨start, some target, direction⟩ (.budget 1)).value
    p.path.nodes = [] ∧ p.path.totalCost = unreachable ∧ Below p.totalCost unreachable := by
  obtain ⟨storage, settings, origin, loaded⟩ := loaded
  have same := (Loading.stored_of_loadInto loaded).shows.steps_eq_legs direction
  rw [← same] at leads
  obtain ⟨rest, least, tree, settled⟩ := Search.exists_run_budget_one (g.steps direction) other
  have unsettled : ∀ v : Fin g.size, (Search.start start : Search g.size α).settled[v] = false :=
    fun v => Bool.eq_false_iff.2 (Search.settled_start start v)
  have waits : ((Search.start start).settle start rest : Search g.size α).settled[target] = false := by
    rw [Search.settle, Table.getElem_set_of_ne _ _ other.symm, unsettled]
  have formed := Search.formed_start (g.steps direction) start
  have expanded := formed.expand least (unsettled start)
  have found := (formed.growing least (unsettled start)).reached_expand waits light below
    (fun v there => ((formed.settle least (unsettled start)).traced.listed v).1 there) (formed.opened least)
    (Table.getElem_set_self _ _ _) leads
  rw [← Search.tree_expand] at found
  have reached := expanded.formed.below target found
  rw [← tree] at reached
  have path : (compute g ⟨start, some target, direction⟩ (.budget 1)).value.path = .none := by
    refine if_neg ?_
    show ¬((Search.start start).run (g.steps direction) (some target) (.budget 1)).1.settled[target] = true
    rw [settled, Search.settled_expand, waits]
    exact Bool.false_ne_true
  dsimp only
  rw [path]
  exact ⟨rfl, rfl, reached⟩

omit [OrderedCosts α] in
/-- What a source lists between its labels becomes a leg. -/
theorem exists_leg {g : Graph α} {settings : LoadSettings α} {origin : Source α}
    (keeps : Loading.Keeps settings origin g) {label : Nat} {entry : Nat × Option α} {weight : α}
    (node : label ∈ origin.nodes)
    (listed : entry ∈ Loading.keptFrom origin label) (given : Loading.weightGiven settings entry.2 = some weight) :
    ∃ start target : Fin g.size, g.ids.label start = label ∧ g.ids.label target = entry.1
      ∧ (target, weight) ∈ g.legs .outgoing start := by
  obtain ⟨start, rfl⟩ := IdMap.mem_labels_iff.1 (keeps.labels ▸ node)
  obtain ⟨r, member, same⟩ := List.mem_map.1 ((keeps.outgoing start).mem_iff.2 (List.mem_map_of_mem listed))
  obtain ⟨itsLabel, itsWeight⟩ := Prod.mk.inj same
  refine ⟨start, r.other, rfl, itsLabel, List.mem_map.2 ⟨r, Graph.mem_along.2 (.inl ⟨rfl, member⟩), ?_⟩⟩
  rw [Graph.weight, itsWeight, given]
  rfl

/-- Among the junctions, a relationship leads from 10 to 20. A search that may ask only once has no path yet. -/
theorem readings_differ_junctions : ∃ (g : Graph Rat) (start target : Fin g.size),
    Loading.loadInto .dense Loading.fiveByDefault Loading.junctions = .ok g ∧ g.Loaded ∧ g.weighted = true
      ∧ let p := (compute g ⟨start, some target, .outgoing⟩ (.budget 1)).value
        p.path.nodes = [] ∧ p.path.totalCost = unreachable ∧ p.totalCost ≠ p.path.totalCost := by
  obtain ⟨g, loaded, -⟩ := Loading.exists_load_junctions .dense
  have isLoaded : g.Loaded := ⟨_, _, _, loaded⟩
  have stored := Loading.stored_of_loadInto loaded
  have listed : (20, some 1) ∈ Loading.keptFrom Loading.junctions 10 := by decide
  obtain ⟨start, target, ten, twenty, leads⟩ := exists_leg (stored.keeps (by decide)) (by decide) listed rfl
  have other : target ≠ start := by
    rintro rfl
    rw [ten] at twenty
    cases twenty
  have differ := readings_differ isLoaded leads other (by decide +kernel) (by decide +kernel)
  refine ⟨g, start, target, loaded, isLoaded, stored.weighted_eq, differ.1, differ.2.1, ?_⟩
  rw [differ.2.1]
  exact differ.2.2.ne

end NetworkAnalysis.ShortestPath
