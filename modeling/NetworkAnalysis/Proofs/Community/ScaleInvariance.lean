import NetworkAnalysis.Proofs.Community.Levels
import NetworkAnalysis.Proofs.Community.Scaling
import NetworkAnalysis.Proofs.ScaledLoad

/-!
# Searches do not depend on the scale of the weights

The level of a loaded graph on another scale is its level on that scale, because every relationship has a weight of
its own or the default. Hence a search reports the same communities, counts and modularities, down to the number of
times that it asks its watch. Where one weight stands for all relationships, the weighted level is the unweighted one
on the scale of that weight.
-/

namespace NetworkAnalysis

/-! ## The weights of a loaded graph -/

theorem Loading.Stored.isSome_weight? {α : Type} [Scalar α] {storage : Storage} {settings : LoadSettings α}
    {source : Source α} {g : Graph α} (h : Stored storage settings source g) (node : Fin g.size) :
    ∀ relationship ∈ g.relationships node .both, (g.weight? relationship.id).isSome := by
  have leaving := h.map_outgoing node fun _ weight => weight
  have entering := h.map_incoming node fun _ weight => weight
  intro relationship member
  rw [h.shows.relationships_both, List.mem_append] at member
  rcases member with leaves | enters
  · have listed := List.mem_map_of_mem (f := fun r : Relationship g.size => g.weight? r.id) leaves
    rw [leaving] at listed
    obtain ⟨link, -, same⟩ := List.mem_map.1 listed
    rw [← same]
    rfl
  · have listed := List.mem_map_of_mem (f := fun r : Relationship g.size => g.weight? r.id) enters
    rw [entering] at listed
    obtain ⟨start, -, inside⟩ := List.mem_flatMap.1 listed
    obtain ⟨link, -, same⟩ := List.mem_map.1 inside
    rw [← same]
    rfl

namespace Graph

open Community Community.Level

variable {g : Graph Rat}

theorem level_unweighted_scaled (scale : Rat) : ofGraph (g.scaled scale) false = ofGraph g false := by
  unfold ofGraph
  rw [if_neg Bool.false_ne_true, if_neg Bool.false_ne_true]
  congr 1
  funext node
  have same := congrArg (List.map Relationship.other) (g.relationships_scaled scale node .both)
  exact congrArg (List.map (·, Scalar.one)) same

/-- On another scale, the level of a loaded graph is on that scale. -/
theorem level_scaled {storage : Storage} {settings : LoadSettings Rat} {source : Source Rat}
    (stored : Loading.Stored storage settings source g) (weighted : g.weighted) (scale : Rat) :
    ofGraph (g.scaled scale) true = (ofGraph g true).scaled scale := by
  have weight : ∀ (node : Fin g.size), ∀ relationship ∈ g.relationships node .both,
      (g.scaled scale).weight relationship.id = scale * g.weight relationship.id := by
    intro node relationship member
    obtain ⟨own, known⟩ := Option.isSome_iff_exists.1 (stored.isSome_weight? node relationship member)
    unfold Graph.weight
    rw [g.weight?_scaled scale weighted, known]
    rfl
  unfold ofGraph
  rw [if_pos rfl, if_pos rfl, ← ofNetwork_scaled]
  congr 1
  funext node
  unfold steps
  rw [List.map_map]
  refine (congrArg (List.map _) (g.relationships_scaled scale node .both)).trans ?_
  refine List.map_congr_left fun relationship member => ?_
  exact Prod.ext rfl (weight node relationship member)

/-- Where all weights are the same, the weighted level is the unweighted one on their scale. -/
theorem level_uniform {weight : Rat} (uniform : g.weights = .uniform weight) :
    ofGraph g true = (ofGraph g false).scaled weight := by
  have same : ∀ id, g.weight id = weight * 1 := by
    intro id
    unfold Graph.weight weight?
    rw [uniform, mul_one]
    rfl
  unfold ofGraph
  rw [if_pos rfl, if_neg Bool.false_ne_true, ← ofNetwork_scaled]
  congr 1
  funext node
  unfold steps neighbours
  rw [List.map_map, List.map_map]
  refine List.map_congr_left fun relationship _ => ?_
  exact Prod.ext rfl (same relationship.id)

end Graph

namespace Community

variable {g : Graph Rat} (settings : CommunitySettings)

theorem checkSettings_scaled (scale : Rat) : checkSettings (g.scaled scale) settings = checkSettings g settings := by
  unfold checkSettings
  rw [g.weighted_scaled]

/-- A graph with all weights on another positive scale is what its source with all weights on that scale loads as. A
search accepts it as it accepts the graph, and reports the same, whatever its workers and its watch. In particular,
with one positive default weight for all relationships a weighted search reports what an unweighted one does. -/
theorem detect_scaled {storage : Storage} {loading : LoadSettings Rat} {source : Source Rat}
    (loaded : Loading.loadInto storage loading source = .ok g) (workers : Option Nat) (watch : Watch) :
    (∀ scale : Rat, 0 < scale →
      Loading.loadInto storage (loading.scaled scale) (source.scaled scale) = .ok (g.scaled scale)
        ∧ (g.weighted = true → ∀ id, (g.scaled scale).weight? id = (g.weight? id).map (scale * ·))
        ∧ checkSettings (g.scaled scale) settings = checkSettings g settings
        ∧ (checkSettings g settings = .ok () →
          detect (g.scaled scale) settings workers watch = detect g settings workers watch))
      ∧ ∀ weight : Rat, 0 < weight → loading.weighted = true → loading.defaultWeight = some weight →
        (∀ entry ∈ Loading.kept source, entry.2.2 = none) →
        let weighted := { settings with weighted := true }
        let unweighted := { settings with weighted := false }
        checkSettings g weighted = checkSettings g unweighted
          ∧ detect g weighted workers watch = detect g unweighted workers watch := by
  have stored := Loading.stored_of_loadInto loaded
  let limits : Limits := { maxIterations := settings.maxIterations, maxLevels := settings.maxLevels, workers }
  constructor
  · intro scale positive
    refine ⟨Loading.loadInto_scaled positive loaded, g.weight?_scaled scale, checkSettings_scaled settings scale, ?_⟩
    intro accepted
    have present := (checkSettings_eq_ok_iff.1 accepted).2.2
    show detectIn (Level.ofGraph (g.scaled scale) settings.weighted) limits watch
      = detectIn (Level.ofGraph g settings.weighted) limits watch
    cases weighted : settings.weighted with
    | false => exact congrArg (detectIn · limits watch) (Graph.level_unweighted_scaled scale)
    | true =>
      have level := Graph.level_scaled stored (present weighted) scale
      exact (congrArg (detectIn · limits watch) level).trans (detectIn_scaled positive limits watch _)
  · intro weight positive asked default bare
    have loadedWeights : g.weighted = true := stored.weighted_eq.trans asked
    have uniform : g.weights = .uniform weight := stored.weights_eq_uniform_iff.2 ⟨asked, default, bare⟩
    constructor
    · unfold checkSettings
      rw [loadedWeights]
      rfl
    · show detectIn (Level.ofGraph g true) limits watch = detectIn (Level.ofGraph g false) limits watch
      rw [Graph.level_uniform uniform, detectIn_scaled positive]

/-- The junctions without any weights of their own. -/
def bareJunctions : Source Rat where
  declared := 4
  nodes := [10, 20, 30, 40]
  relationships
    | 10 => [(30, none), (20, none), (30, none)]
    | 20 => [(30, none)]
    | 30 => [(10, none)]
    | _ => []

/-- The junctions are searched with weights half as large again, and without weights of their own as if they had
none. -/
theorem detect_scaled_junctions : ∃ g h : Graph Rat,
    Loading.loadInto .huge Loading.fiveByDefault Loading.junctions = .ok g
      ∧ Loading.loadInto .huge (Loading.fiveByDefault.scaled (3 / 2)) (Loading.junctions.scaled (3 / 2))
        = .ok (g.scaled (3 / 2))
      ∧ detect (g.scaled (3 / 2)) { weighted := true } (some 2) (.budget 3)
        = detect g { weighted := true } (some 2) (.budget 3)
      ∧ Loading.loadInto .dense Loading.fiveByDefault bareJunctions = .ok h
      ∧ detect h { weighted := true } none (.budget 3) = detect h { weighted := false } none (.budget 3) := by
  obtain ⟨g, loaded, -⟩ := Loading.exists_load_junctions .huge
  have bare : ∀ entry ∈ Loading.kept bareJunctions, entry.2.2 = none := by decide
  obtain ⟨h, loaded', -⟩ : ∃ h : Graph Rat, Loading.loadInto .dense Loading.fiveByDefault bareJunctions = .ok h
      ∧ h.ids.labels.toList = [10, 20, 30, 40] := by
    refine Loading.exists_loadInto (by decide) (by decide) (by decide) (by decide) ?_ (by decide)
    intro _ unset
    cases unset
  have weighted : g.weighted = true := (Loading.stored_of_loadInto loaded).weighted_eq
  have accepted : checkSettings g { weighted := true } = .ok () :=
    checkSettings_eq_ok_iff.2 ⟨by decide, by decide, fun _ => weighted⟩
  obtain ⟨scaled, -⟩ := detect_scaled { weighted := true } loaded (some 2) (.budget 3)
  obtain ⟨again, -, -, same⟩ := scaled (3 / 2) (by norm_num)
  obtain ⟨-, uniform⟩ := detect_scaled {} loaded' none (.budget 3)
  exact ⟨g, h, loaded, again, same accepted, loaded', (uniform 5 (by norm_num) rfl rfl bare).2⟩

end Community

end NetworkAnalysis
