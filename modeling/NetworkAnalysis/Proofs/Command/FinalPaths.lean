import NetworkAnalysis.Proofs.Command.Sessions
import NetworkAnalysis.Proofs.ShortestPath.Distances

/-!
# Only final paths are written

A search that ends at its target leaves costs and predecessors of nodes that are not settled, and these may still
change. The command about shortest paths writes and counts only what is settled: the distance of any other node is
replaced by the mark of the unreachable, which the export passes over (`due_distance`), and the predecessor by none
(`exists_due_predecessor`). What stays below that mark is settled, so counting by the mark counts the settled nodes.
-/

namespace NetworkAnalysis.Command

open ShortestPath

variable {g : Graph Float} {p : ShortestPaths g.size Float}

/-! ## What is due -/

/-- The settled nodes, in the order of their numbers. -/
def settledNodes {n : Nat} {α : Type} (p : ShortestPaths n α) : List (Fin n) :=
  (List.finRange n).filter fun v : Fin n => p.isSettled v

theorem mem_settledNodes {n : Nat} {α : Type} {p : ShortestPaths n α} {v : Fin n} :
    v ∈ settledNodes p ↔ p.isSettled v = true := by
  simp [settledNodes]

/-- What is written about the distance of a node. -/
def distanceOf (g : Graph Float) (v : Fin g.size) (distance : Float) : Property Float :=
  { label := g.ids.label v, name := "distance", value := .double distance }

/-- What is written about the node that comes before a node. -/
def predecessorOf (g : Graph Float) (v previous : Fin g.size) : Property Float :=
  { label := g.ids.label v, name := "predecessor", value := .node (g.ids.label previous) }

section Due

variable {steps : Network g.size Float} (final : p.Final steps)

include final

/-- The mark of the unreachable sets the settled nodes apart. -/
theorem finalCosts_lt_iff (v : Fin g.size) : p.finalCosts[v] < Scalar.unreachable ↔ p.isSettled v = true := by
  rw [ShortestPaths.finalCosts, Table.getElem_ofFn, ← ShortestPaths.isSettled_val, ← ShortestPaths.distance_val]
  by_cases done : p.isSettled v = true
  · rw [if_pos done]
    exact ⟨fun _ => done, fun _ => final.below v done⟩
  · rw [if_neg done]
    exact ⟨fun below => absurd rfl (OrderedCosts.below_of_lt below).ne, fun done' => absurd done' done⟩

theorem countP_finalCosts :
    (p.finalCosts.toList.countP fun distance => decide (distance < Scalar.unreachable)) = (settledNodes p).length := by
  have listed : p.finalCosts.toList = (List.finRange g.size).map fun v => p.finalCosts[v] := by
    rw [ShortestPaths.finalCosts, Table.toList_ofFn]
    simp only [Table.getElem_ofFn]
  rw [listed, List.countP_map, settledNodes, ← List.countP_eq_length_filter]
  refine List.countP_congr fun v _ => ?_
  simp [finalCosts_lt_iff final]

theorem ofCosts_finalCosts (v : Fin g.size) :
    Translator.ofCosts p.finalCosts.toArray v
      = if p.isSettled v then some (.double (p.distance v)) else none := by
  unfold Translator.ofCosts
  rw [Table.getElem?_toArray, Option.filter_some]
  by_cases done : p.isSettled v = true
  · rw [if_pos (decide_eq_true ((finalCosts_lt_iff final v).2 done)), if_pos done, ShortestPaths.finalCosts,
      Table.getElem_ofFn, ← ShortestPaths.isSettled_val, if_pos done, ShortestPaths.distance_val]
    rfl
  · rw [if_neg (by simpa using mt (finalCosts_lt_iff final v).1 done), if_neg done]
    rfl

/-- A distance is due for every settled node, and for no other. -/
theorem due_distance :
    Exportable.due g.ids { name := "distance", values := .ofCosts p.finalCosts.toArray }
      = (settledNodes p).map fun v => distanceOf g v (p.distance v) := by
  rw [Exportable.due, Export.due_size, settledNodes, ← List.filterMap_eq_map, List.filterMap_filter]
  refine List.filterMap_congr fun v _ => ?_
  dsimp only
  rw [ofCosts_finalCosts final]
  split <;> rfl

omit final in
theorem ofReferences_finalPredecessors (v : Fin g.size) :
    Translator.ofReferences (α := Float) g.ids (p.finalPredecessors.toArray.map fun v => v.map Fin.val) v
      = if p.isSettled v then (p.predecessor v).map fun u => .node (g.ids.label u) else none := by
  have labelled : ∀ u : Fin g.size, g.ids.label? u = some (g.ids.label u) := fun u => Array.getElem?_eq_getElem u.isLt
  unfold Translator.ofReferences
  rw [Array.getD_eq_getD_getElem?, Array.getElem?_map, Table.getElem?_toArray, ShortestPaths.finalPredecessors,
    Table.getElem_ofFn, ← ShortestPaths.isSettled_val, ShortestPaths.predecessor_val]
  split
  · rcases p.predecessors[v] with _ | u
    · rfl
    · exact congrArg (Option.map _) (labelled u)
  · rfl

/-- A predecessor is due for every settled node but the source, and for no other. -/
theorem exists_due_predecessor : ∃ previous : Fin g.size → Fin g.size,
    (∀ v : Fin g.size, p.isSettled v = true → v ≠ p.source → p.predecessor v = some (previous v))
      ∧ Exportable.due g.ids
          { name := "predecessor"
            values := .ofReferences g.ids (p.finalPredecessors.toArray.map fun v => v.map Fin.val) }
        = ((settledNodes p).filter (· ≠ p.source)).map fun v => predecessorOf g v (previous v) := by
  have link : ∀ v : Fin g.size, p.isSettled v = true → v ≠ p.source →
      p.predecessor v = some ((p.predecessor v).getD p.source) := by
    intro v done other
    obtain ⟨u, same, -⟩ := final.hop v done other
    rw [same, Option.getD_some]
  refine ⟨fun v => (p.predecessor v).getD p.source, link, ?_⟩
  rw [Exportable.due, Export.due_size, settledNodes, List.filter_filter, ← List.filterMap_eq_map, List.filterMap_filter]
  refine List.filterMap_congr fun v _ => ?_
  dsimp only
  rw [ofReferences_finalPredecessors]
  by_cases done : p.isSettled v = true
  · rw [if_pos done]
    by_cases itself : v = p.source
    · subst itself
      rw [final.root]
      simp
    · rw [if_pos (by simp [done, itself]), link v done itself]
      rfl
  · rw [if_neg done, if_neg (by simp [done])]
    rfl

/-- There is a path to the target exactly if the target is settled. -/
theorem nodes_path_ne_nil_iff : p.path.nodes ≠ [] ↔ ∃ t, p.target = some t ∧ p.isSettled t = true := by
  unfold ShortestPaths.path
  rcases p.target with _ | t
  · simp [Path.none]
  · dsimp only
    rw [← ShortestPaths.pathTo_val, Ne, final.path, Bool.not_eq_false]
    simp

omit final in
theorem totalCost_path {t : Fin g.size} (asked : p.target = some t) (found : p.path.nodes ≠ []) :
    p.path.totalCost = p.distance t := by
  unfold ShortestPaths.path at found ⊢
  rw [asked] at found ⊢
  dsimp only [ShortestPaths.pathToNode] at found ⊢
  split at found
  · next done => rw [if_pos done, ShortestPaths.distance_val]
  · exact absurd rfl found

end Due

/-! ## What is said -/

/-- What is said about shortest paths and what is written about them is final. Of the nodes that are settled, which are
given in the order of their numbers, first all distances are written, and then all predecessors. -/
structure FinalPaths (g : Graph Float) (query : Query g.size) (nodes : List (Fin g.size))
    (distance : Fin g.size → Float) (facts : PathFacts) (written : Nat) (text : String) : Prop where
  /-- The nodes are in order. -/
  ascending : nodes.Pairwise (· < ·)
  /-- Their distances are right. -/
  distances : ∀ v ∈ nodes, (g.legs query.direction).Distance query.source v (distance v)
  /-- There is a line for the distance of every one of them, and for the predecessor of every one but the source, which
  is one of them and makes up the distance. -/
  lines : ∃ previous : Fin g.size → Fin g.size,
    (∀ v ∈ nodes, v ≠ query.source → previous v ∈ nodes
      ∧ ∃ weight, (v, weight) ∈ g.legs query.direction (previous v) ∧ distance v = distance (previous v) + weight)
    ∧ let values := (nodes.map fun v => distanceOf g v (distance v))
        ++ (nodes.filter (· ≠ query.source)).map fun v => predecessorOf g v (previous v)
      text = String.join (values.map propertyLine) ∧ written = values.length
  /-- As many nodes count as settled as there are distances. -/
  settled : facts.settled = nodes.length
  /-- A cost is given if a target was asked for that is in reach, -/
  totalCost : facts.totalCost ≠ none ↔ ∃ t, query.target = some t ∧ (g.legs query.direction).InReach query.source t
  /-- and so is a path. -/
  path : facts.path ≠ [] ↔ ∃ t, query.target = some t ∧ (g.legs query.direction).InReach query.source t
  /-- The cost is the distance of the target. -/
  cost : ∀ t cost, query.target = some t → facts.totalCost = some cost → cost = distance t

/-- Where all is final that a search has settled, so is what is said and written about it. -/
theorem finalPaths_of_final {query : Query g.size} {file : ExportedFile} (final : p.Final (g.legs query.direction))
    (source : p.source = query.source) (target : p.target = query.target)
    (reach : ∀ t, query.target = some t →
      (p.isSettled t = true ↔ (g.legs query.direction).InReach query.source t))
    (holds : file.Holds g.ids (pathProperties g p)) (completed : file.completed = true) :
    FinalPaths g query (settledNodes p) (fun v => p.distance v) (PathFacts.ofPaths g p) file.written file.text := by
  have reached : p.path.nodes ≠ [] ↔ ∃ t, query.target = some t ∧ (g.legs query.direction).InReach query.source t := by
    rw [nodes_path_ne_nil_iff final, target]
    exact exists_congr fun t => and_congr_right (reach t)
  obtain ⟨previous, linked, due⟩ := exists_due_predecessor final
  have lines : file.lines.reverse
      = (((settledNodes p).map fun v => distanceOf g v (p.distance v))
        ++ ((settledNodes p).filter (· ≠ p.source)).map fun v => predecessorOf g v (previous v)).map propertyLine := by
    rw [holds.all completed, pathProperties, List.flatMap_cons, List.flatMap_singleton, due_distance final, due]
  constructor
  case ascending => exact (List.pairwise_lt_finRange _).filter _
  case distances =>
    intro v member
    exact source ▸ final.distance v (mem_settledNodes.1 member)
  case lines =>
    refine ⟨previous, fun v member other => ?_, ?_, ?_⟩
    · have done := mem_settledNodes.1 member
      obtain ⟨u, link, done', step⟩ := final.hop v done (source ▸ other)
      obtain rfl : u = previous v := Option.some.inj (link.symm.trans (linked v done (source ▸ other)))
      exact ⟨mem_settledNodes.2 done', step⟩
    · rw [ExportedFile.text, lines, source]
    · rw [holds.written, ← List.length_reverse, lines, List.length_map, source]
  case settled => exact countP_finalCosts final
  case totalCost =>
    rw [← reached]
    simp [PathFacts.ofPaths]
  case path =>
    rw [← reached]
    simp [PathFacts.ofPaths]
  case cost =>
    intro t cost asked given
    by_cases pathless : p.path.nodes = []
    · simp [PathFacts.ofPaths, pathless] at given
    · simp only [PathFacts.ofPaths, List.isEmpty_iff, if_neg pathless] at given
      exact (Option.some.inj given).symm.trans (totalCost_path (target.trans asked) pathless)

/-! ## The command -/

section Command

variable {σ : Type} {world : World (StateM σ)} {invocation : Invocation} {path : String} {contents : σ → Option String}

theorem Session.gives_conclude (keeps : world.Keeps path contents) (output : invocation.output = some path)
    (g : Graph Float) (deadline : Option Nat) (loading computing : Nat) (completed : Bool)
    (properties : List Exportable) (findings : Findings) :
    Gives (fun _ => True)
      (conclude world invocation g deadline loading computing completed properties findings)
      fun page w => ∃ file writing, Ran deadline (exportAll g.ids properties) file ∧ contents w = some file.text
        ∧ page = findings.page (.ofGraph g)
          { completed, loading, computing, writing
            written := some { path, written := file.written, completed := file.completed } } := by
  unfold conclude
  rw [output]
  refine .bind (gives_writeValues keeps deadline g.ids properties) fun result => .pure ?_
  rintro w ⟨file, ran, held, same⟩
  refine ⟨file, result.2, ran, held, ?_⟩
  rw [← same]

/-- The nodes of a graph with weights make a query. -/
theorem check_val {g : Graph Float} (weighted : g.weighted = true) (query : Query g.size) :
    Query.check g query.source (query.target.map Fin.val) query.direction = .ok query := by
  have node : ∀ v : Fin g.size, g.checkNode v = .ok v := fun v => dif_pos v.isLt
  obtain ⟨source, target, direction⟩ := query
  unfold Query.check
  cases target with
  | none =>
    rw [weighted, node]
    rfl
  | some target =>
    rw [weighted, node, Option.map_some, Option.mapM_some, node]
    rfl

theorem completed_compute (g : Graph Float) (query : Query g.size) : (compute g query .always).completed = true :=
  (Search.watched_run (g.steps query.direction) query.target (Search.start query.source)).completed_always

theorem Session.gives_search {g : Graph Float} (weighted : g.weighted = true) (query : Query g.size)
    (deadline : Option Nat) :
    Gives (fun _ => True)
      (measure world "compute" do
        let query ← orError (Query.check g query.source (query.target.map Fin.val) query.direction)
        analyse world deadline (compute g query))
      fun result _ => Ran deadline (compute g query) result.1 ∧ True := by
  rw [check_val weighted]
  refine .measure (fun _ _ => trivial) ?_
  refine .bind (gives_orError query) fun value => .assume ?_
  rintro rfl
  exact (gives_supervised (fun _ _ => trivial) _ _ _).weaken fun _ _ ran _ => ran

/-- What the command leaves is made of a search under some watch. Its page and its file say whether they are complete,
which they are if no time is set. If both are, all that they say is final. -/
def Concluded (g : Graph Float) (query : Query g.size) (timeout : Option Nat) (path : String) (page : Page)
    (contents : Option String) : Prop :=
  ∃ (watch : Watch) (run : RunFacts) (file : ExportFacts) (text : String),
    let report := compute g query watch
    let facts := PathFacts.ofPaths g report.value
    page = facts.findings.page (.ofGraph g) run ∧ run.written = some file ∧ file.path = path ∧ contents = some text
      ∧ (timeout = none → run.completed = true ∧ file.completed = true)
      ∧ (run.completed = true → file.completed = true → ∃ nodes distance,
        (∀ v : Fin g.size, v ∈ nodes ↔ report.value.isSettled v = true)
          ∧ FinalPaths g query nodes distance facts file.written text)

/-- In a world that keeps what is written, the command about shortest paths writes and says only what is final, unless
the time has run out. A search that ends early at its target is no exception. -/
theorem shortestPath_writes_final (keeps : world.Keeps path contents) (output : invocation.output = some path)
    {g : Graph Float} (loaded : g.Loaded) (weighted : g.weighted = true) (nonnegative : g.NonnegativeWeights)
    (query : Query g.size) (loading : Nat) :
    Session.Gives (fun _ => True)
      (Session.shortestPath world invocation g loading (g.ids.label query.source) (query.target.map g.ids.label)
        query.direction)
      fun page w => Concluded g query invocation.timeout path page (contents w) := by
  unfold Session.shortestPath
  refine .bind (Session.gives_nodeOf g query.source) fun source => .assume ?_
  rintro rfl
  refine .bind (Session.gives_nodesOf g query.target) fun target => .assume ?_
  rintro rfl
  refine .bind (Session.gives_deadline (fun _ _ => trivial) invocation.timeout) fun deadline => .assume fun free => ?_
  refine .bind (Session.gives_search weighted query deadline) fun result => .assume ?_
  obtain ⟨report, computing⟩ := result
  rintro ⟨watch, rfl, always⟩
  refine (Session.gives_conclude keeps output g deadline loading computing _ _ _).weaken ?_
  rintro page w ⟨file, writing, ⟨watch', rfl, always'⟩, held, same⟩
  refine ⟨watch, _, _, _, same, rfl, rfl, held, fun endless => ?_, fun completed all => ?_⟩
  · obtain rfl := always (free endless)
    obtain rfl := always' (free endless)
    exact ⟨completed_compute g query, completed_exportAll _ _⟩
  · obtain ⟨final, reach⟩ := compute_final loaded nonnegative query watch
    exact ⟨_, _, fun v => mem_settledNodes,
      finalPaths_of_final final rfl rfl (reach completed) (holds_exportAll _ _ _) all⟩

end Command

/-- A world of one file, in which no time passes. -/
def notebook : World (StateM (Option String)) where
  read _ := pure (.error .missing)
  write _ text := fun _ => (.ok (), some text)
  clock := pure 0
  processors := pure 1

/-- A search for the way from 1 to 3, with a file for the values. -/
def fromOneToThree : Invocation where
  verbose := false
  timing := false
  format := none
  json := false
  settingsFile := none
  timeout := none
  graph := { input := "level", backend := none, weighted := true, defaultWeight := none }
  task := .shortestPath 1 (some 3) .outgoing
  output := some "values"

/-- Without a time that is set, the file in the notebook is complete, and final. -/
theorem shortestPath_writes_final_level : ∃ g : Graph Float,
    Loading.loadInto .dense { weighted := true, defaultWeight := none } level = .ok g
      ∧ notebook.Keeps "values" id ∧ g.Loaded ∧ g.weighted = true ∧ g.NonnegativeWeights
      ∧ ∀ (query : Query g.size) (loading : Nat),
        Session.Gives (fun _ => True)
          (Session.shortestPath notebook fromOneToThree g loading (g.ids.label query.source)
            (query.target.map g.ids.label) query.direction)
          fun _ contents => ∃ nodes distance facts written text, contents = some text
            ∧ FinalPaths g query nodes distance facts written text := by
  obtain ⟨g, loaded, nonnegative⟩ := exists_load_level
  have isLoaded : g.Loaded := ⟨_, _, _, loaded⟩
  have weighted : g.weighted = true := (Loading.stored_of_loadInto loaded).weighted_eq
  have keeps : notebook.Keeps "values" id := ⟨fun _ => rfl, fun _ _ => ⟨rfl, rfl⟩⟩
  refine ⟨g, loaded, keeps, isLoaded, weighted, nonnegative, fun query loading => ?_⟩
  have output : fromOneToThree.output = some "values" := rfl
  refine (shortestPath_writes_final keeps output isLoaded weighted nonnegative query loading).weaken ?_
  rintro page contents ⟨watch, run, file, text, -, -, -, held, complete, final⟩
  obtain ⟨nodes, distance, -, paths⟩ := final (complete rfl).1 (complete rfl).2
  exact ⟨nodes, distance, _, _, text, held, paths⟩

end NetworkAnalysis.Command
