import NetworkAnalysis.Proofs.Community.Collapse
import NetworkAnalysis.Proofs.Community.Convergence
import NetworkAnalysis.Proofs.Community.Levels
import NetworkAnalysis.Proofs.Community.Shrinking

/-!
# Communities of communities

A search that has converged finds nothing to join in the graph of its communities. The level at which it has ended
and the level of that graph are quotients of the same level by the same classes. They differ in the order and the
number of their entries, but not in their weights, and the first one joins all that the second one joins.
-/

namespace NetworkAnalysis.Community

variable {n m : Nat}

/-- Every node of the level stands for base nodes, and the level joins what joined base nodes stand for. -/
structure Climb.Covers (base : Level n Rat) (c : Climb n m Rat) : Prop where
  onto : ∀ d : Fin m, ∃ u : Fin n, c.place[u] = d
  joins : ∀ u v : Fin n, base.Joins u v → c.place[v] ≠ c.place[u] → c.level.Joins c.place[u] c.place[v]
  loopless : ∀ d : Fin m, ∀ entry ∈ c.level.rows[d], entry.1 ≠ d

namespace Climb

theorem covers_start {base : Level n Rat} (loopless : ∀ u : Fin n, ∀ entry ∈ base.rows[u], entry.1 ≠ u) :
    (start base).Covers base := by
  have place : ∀ u : Fin n, (start base).place[u] = u := fun u => Table.getElem_ofFn id u
  refine ⟨fun d => ⟨d, place d⟩, fun u v joins _ => ?_, loopless⟩
  rw [place, place]
  exact joins

theorem Covers.next {base : Level n Rat} {c : Climb n m Rat} (h : c.Covers base) (limits : Limits)
    (run : LevelRun m Rat) : (c.next limits run).Covers base := by
  let communities := (renumber run.state.community).community
  have place : ∀ u : Fin n, (c.next limits run).place[u] = communities[c.place[u]] :=
    fun u => Table.getElem_map _ c.place u
  constructor
  case onto => exact Onto.next h.onto limits run
  case joins =>
    intro u v joins apart
    rw [place, place] at apart ⊢
    refine Level.joins_coarsen_iff.2 ⟨apart, _, _, h.joins u v joins fun same => apart ?_, rfl, rfl⟩
    rw [same]
  case loopless => exact Level.loopless_coarsen c.level communities

end Climb

theorem loopless_ofGraph (g : Graph Rat) (weighted : Bool) (u : Fin g.size) :
    ∀ entry ∈ (Level.ofGraph g weighted).rows[u], entry.1 ≠ u := by
  rw [g.level_eq]
  exact Level.loopless_ofNetwork _ u

/-! ## The first search -/

/-- What a sequential search has come to that ended before its cap of levels. -/
theorem detect_converged {g : Graph Rat} {settings : CommunitySettings} (allowed : settings.maxIterations ≠ 0)
    {watch : Watch} (completed : (detect g settings none watch).completed = true)
    (early : (detect g settings none watch).value.levels < settings.maxLevels) :
    ∃ (k : Nat) (last : Climb g.size k Rat), last.Sound (.ofGraph g settings.weighted)
      ∧ last.Covers (.ofGraph g settings.weighted) ∧ last.level.Settled
      ∧ (detect g settings none watch).value.assignment = last.place.map Fin.val
      ∧ (detect g settings none watch).value.count = k
      ∧ (detect g settings none watch).value.modularity = last.modularity := by
  let base := Level.ofGraph g settings.weighted
  let limits : Limits := ⟨settings.maxIterations, settings.maxLevels, none⟩
  have exact : base.Exact := g.exact_level settings.weighted
  have completed' : ((Climb.start base).run limits watch settings.maxLevels).completed = true := completed
  obtain ⟨k, last, ⟨sound, covers⟩, still, finished, run⟩ := Climb.run_converged
    (P := fun c => c.Sound base ∧ c.Covers base) (fun _ run h => ⟨h.1.next exact limits run, h.2.next limits run⟩)
    settings.maxLevels (.start base) ⟨Climb.sound_start exact, Climb.covers_start (loopless_ofGraph g _)⟩ completed'
    (early.trans_eq (Nat.zero_add _).symm)
  have found : (detect g settings none watch).value
      = (last.rest (optimize limits watch last.polls last.level)).found :=
    congrArg (fun report => report.value) run
  have settled : last.level.Settled :=
    (pass_singletons_eq_zero_iff covers.loopless rfl).1 (pass_of_optimize allowed still finished)
  refine ⟨k, last, sound, covers, settled, by rw [found]; rfl, ?_, by rw [found]; rfl⟩
  rw [found]
  exact count_of_onto covers.onto

/-! ## The second search -/

/-- The graph of the communities that a search has come to is settled where the last level of the search is, and has
its modularity. -/
theorem Collapses.settled {g h : Graph Rat} (loaded : g.Loaded) {weighted : Bool} {last : Climb g.size h.size Rat}
    (sound : last.Sound (.ofGraph g weighted)) (covers : last.Covers (.ofGraph g weighted))
    (settled : last.level.Settled) {count : Nat} {source : Source Rat}
    (collapses : Collapses g weighted (last.place.map Fin.val) count source) {storage : Storage}
    {settings : LoadSettings Rat} (weights : settings.weighted = true)
    (loaded' : Loading.loadInto storage settings source = .ok h) :
    (Level.ofGraph h true).Settled
      ∧ (Level.ofGraph h true).quality (id : Fin h.size → Fin h.size) = last.modularity := by
  have stored := Loading.stored_of_loadInto loaded'
  have exact : (Level.ofGraph g weighted).Exact := g.exact_level weighted
  have places : ∀ u : Fin g.size, (last.place[u]).val = (last.place.map Fin.val)[u] :=
    fun u => (Table.getElem_map _ _ _).symm
  have quotient := collapses.quotient stored weights places loaded
  refine ⟨settled.of_quotient exact sound.quotient quotient ?_, ?_⟩
  · intro c d other joins
    obtain ⟨u, v, rfl, rfl, members⟩ := collapses.joins stored weights places loaded ⟨_, _, _, loaded'⟩ joins
    exact covers.joins u v members other
  · rw [quotient.quality exact, sound.modularity]
    rfl

/-- A search in a settled graph leaves every node in its community. -/
theorem detect_of_settled {h : Graph Rat} {settings : CommunitySettings} (allowed : settings.maxLevels ≠ 0)
    (settled : (Level.ofGraph h settings.weighted).Settled) (watch : Watch) :
    let found := (detect h settings none watch).value
    found.levels = 0 ∧ (∀ c : Fin h.size, found.assignment[c] = c.val) ∧ found.count = h.size
      ∧ found.modularity = (Level.ofGraph h settings.weighted).quality (id : Fin h.size → Fin h.size) := by
  let limits : Limits := ⟨settings.maxIterations, settings.maxLevels, none⟩
  have still : (limits.pass (.ofGraph h settings.weighted) (.singletons (.ofGraph h settings.weighted))).2 = 0 :=
    (pass_singletons_eq_zero_iff (loopless_ofGraph h _) rfl).2 settled
  have found : (detect h settings none watch).value = _ :=
    (Climb.start (.ofGraph h settings.weighted)).run_of_pass still watch allowed
  dsimp only
  rw [found]
  have place : ∀ c : Fin h.size, (Climb.start (.ofGraph h settings.weighted)).place[c] = c :=
    fun c => Table.getElem_ofFn id c
  refine ⟨rfl, fun c => ?_, count_of_onto fun c => ⟨c, place c⟩, Climb.modularity_start _⟩
  exact (Table.getElem_map _ _ _).trans (congrArg Fin.val (place c))

/-- A sequential search that has converged is stable: in the graph of its communities, a weighted sequential search
moves nothing. -/
theorem detect_stable {g h : Graph Rat} (loaded : g.Loaded) {settings settings' : CommunitySettings}
    (accepted : checkSettings g settings = .ok ()) {watch : Watch}
    (completed : (detect g settings none watch).completed = true)
    (early : (detect g settings none watch).value.levels < settings.maxLevels) {source : Source Rat}
    (collapses : Collapses g settings.weighted (detect g settings none watch).value.assignment
      (detect g settings none watch).value.count source)
    {storage : Storage} {loading : LoadSettings Rat} (weights : loading.weighted = true)
    (loaded' : Loading.loadInto storage loading source = .ok h) (iterations : settings'.maxIterations ≠ 0)
    (levels : settings'.maxLevels ≠ 0) (weighted : settings'.weighted = true) (watch' : Watch) :
    checkSettings h settings' = .ok ()
      ∧ let first := (detect g settings none watch).value
        let second := (detect h settings' none watch').value
        h.size = first.count ∧ second.levels = 0 ∧ (∀ c : Fin h.size, second.assignment[c] = c.val)
          ∧ second.count = first.count ∧ second.modularity = first.modularity := by
  have stored := Loading.stored_of_loadInto loaded'
  obtain ⟨allowed, -, -⟩ := checkSettings_eq_ok_iff.1 accepted
  obtain ⟨k, last, sound, covers, settled, assignment, count, modularity⟩ := detect_converged allowed completed early
  have size : h.size = (detect g settings none watch).value.count := IdMap.size_of_range (collapses.numbered stored)
  obtain rfl : k = h.size := (size.trans count).symm
  rw [assignment] at collapses
  -- Here the two routes meet: what is settled at the last level is settled in the graph that was loaded.
  obtain ⟨settled', quality⟩ := collapses.settled loaded sound covers settled weights loaded'
  rw [← weighted] at settled' quality
  obtain ⟨unclimbed, own, count', modularity'⟩ := detect_of_settled levels settled' watch'
  refine ⟨?_, size, unclimbed, own, count'.trans size, modularity'.trans (quality.trans modularity.symm)⟩
  exact checkSettings_eq_ok_iff.2 ⟨iterations, levels, fun _ => stored.weighted_eq.trans weights⟩

/-- The search among the junctions has levels to spare. What it finds is loaded into the other storage, and searched
for one pass. -/
theorem detect_stable_junctions : ∃ g h : Graph Rat,
    let settings : CommunitySettings := { weighted := true }
    let settings' : CommunitySettings := { weighted := true, maxIterations := 1, maxLevels := 1 }
    let first := detect g settings none .always
    let second := (detect h settings' none .always).value
    let source := collapsed g true first.value.assignment first.value.count
    Loading.loadInto .dense Loading.fiveByDefault Loading.junctions = .ok g ∧ g.Loaded
      ∧ checkSettings g settings = .ok () ∧ first.completed = true ∧ first.value.levels < settings.maxLevels
      ∧ Collapses g true first.value.assignment first.value.count source
      ∧ Loading.loadInto .huge Loading.fiveByDefault source = .ok h ∧ checkSettings h settings' = .ok ()
      ∧ h.size = first.value.count ∧ second.levels = 0 ∧ (∀ c : Fin h.size, second.assignment[c] = c.val)
      ∧ second.count = first.value.count ∧ second.modularity = first.value.modularity := by
  obtain ⟨g, loaded, labels⟩ := Loading.exists_load_junctions .dense
  have four : g.size = 4 := congrArg List.length labels
  have isLoaded : g.Loaded := ⟨_, _, _, loaded⟩
  have accepted : checkSettings g { weighted := true } = .ok () :=
    checkSettings_eq_ok_iff.2 ⟨by decide, by decide, fun _ => (Loading.stored_of_loadInto loaded).weighted_eq⟩
  have completed : (detect g { weighted := true } none .always).completed = true := Climb.run_always _ _ _
  have early : (detect g { weighted := true } none .always).value.levels < 10 :=
    Climb.levels_lt_of_room _ _ (by decide) (Climb.onto_start _) (four.trans_le (by decide))
  obtain ⟨k, last, sound, -, -, -, count, -⟩ := detect_converged (by decide) completed early
  let found := (detect g { weighted := true } none .always).value
  have collapses := collapses_collapsed g true found.assignment found.count
  obtain ⟨h, loaded'⟩ : ∃ h : Graph Rat,
      Loading.loadInto .huge Loading.fiveByDefault (collapsed g true found.assignment found.count) = .ok h :=
    exists_load_collapsed loaded (by decide) (by decide) true found.assignment (count.trans_le sound.bound)
  refine ⟨g, h, loaded, isLoaded, accepted, completed, early, collapses, loaded', ?_⟩
  exact detect_stable isLoaded accepted completed early collapses rfl loaded' (by decide) (by decide) rfl .always

end NetworkAnalysis.Community
