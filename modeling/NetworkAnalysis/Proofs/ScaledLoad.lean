import NetworkAnalysis.Proofs.LoadSuccess

/-!
# Loading weights on another scale

A load never compares weights: it asks whether they are there, and whether the default is negative. A source with all
weights multiplied by a positive number is accepted where the source is, and leaves the same graph with all weights
multiplied (`loadInto_scaled`), in either storage and in whatever form the weights are kept.
-/

namespace NetworkAnalysis

/-! ## Paged arrays -/

namespace Paged

variable {β γ : Type}

/-- The array with every entry changed. -/
def map (f : β → γ) (a : Paged β) : Paged γ where
  pages := a.pages.map (Array.map f)
  size := a.size

theorem get?_map (f : β → γ) (a : Paged β) (i : Nat) : (a.map f).get? i = (a.get? i).map f := by
  unfold get? map
  rw [Array.getElem?_map, Option.bind_map, Option.map_bind]
  congr 1
  funext page
  exact Array.getElem?_map

/-- The builder with every entry changed. -/
def Builder.map (f : β → γ) (b : Builder β) : Builder γ where
  full := b.full.map (Array.map f)
  last := b.last.map f

namespace Builder

theorem push_map (f : β → γ) (b : Builder β) (value : β) : (b.map f).push (f value) = (b.push value).map f := by
  unfold push map
  rw [Array.size_map]
  split
  · rw [Array.map_push]
  · dsimp only
    rw [Array.map_push]
    rw [List.map_toArray (l := [value])]
    rfl

theorem build_map (f : β → γ) (b : Builder β) : (b.map f).build = b.build.map f := by
  have size : (b.map f).size = b.size := by
    unfold size map
    rw [Array.size_map, Array.size_map]
  have last : (b.map f).last.isEmpty = b.last.isEmpty := by
    unfold map Array.isEmpty
    rw [Array.size_map]
  unfold build Paged.map
  rw [size, last]
  split
  · rfl
  · dsimp only
    rw [Array.map_push]
    rfl

end Builder

theorem ofList_map (f : β → γ) (values : List β) : ofList (values.map f) = (ofList values).map f := by
  have appended : (values.map f).foldl Builder.push (Builder.empty.map f)
      = (values.foldl Builder.push Builder.empty).map f := by
    rw [List.foldl_map]
    exact List.foldl_hom (Builder.map f) fun b value => b.push_map f value
  have empty : (Builder.empty : Builder β).map f = Builder.empty := by
    unfold Builder.map Builder.empty
    rw [Array.map_empty, Array.map_empty]
  unfold ofList Builder.append
  rw [← Builder.build_map, ← appended, empty]

end Paged

/-! ## Graphs -/

variable (scale : Rat)

/-- The weights on another scale. -/
def Weights.scaled : Weights Rat → Weights Rat
  | absent => absent
  | uniform weight => uniform (scale * weight)
  | table weights => table (weights.map (scale * ·))
  | pages weights => pages (weights.map (scale * ·))

theorem Weights.get?_scaled {weights : Weights Rat} (present : weights.present) (id : Nat) :
    (weights.scaled scale).get? id = (weights.get? id).map (scale * ·) := by
  cases weights with
  | absent => cases present
  | uniform weight => rfl
  | table weights => exact Array.getElem?_map
  | pages weights => exact weights.get?_map _ id

/-- The graph with all weights on another scale. -/
def Graph.scaled (g : Graph Rat) : Graph Rat :=
  { g with weights := g.weights.scaled scale }

namespace Graph

variable (g : Graph Rat)

theorem relationships_scaled (node : Fin g.size) (direction : Direction) :
    (g.scaled scale).relationships node direction = g.relationships node direction := by
  rcases g with ⟨ids, rows | rows, weights⟩ <;> rfl

theorem weighted_scaled : (g.scaled scale).weighted = g.weighted := by
  unfold weighted scaled
  cases g.weights <;> rfl

theorem weight?_scaled (weighted : g.weighted) (id : Nat) :
    (g.scaled scale).weight? id = (g.weight? id).map (scale * ·) :=
  g.weights.get?_scaled scale weighted id

end Graph

/-! ## Sources -/

/-- The settings with the default weight on another scale. -/
def LoadSettings.scaled (settings : LoadSettings Rat) : LoadSettings Rat :=
  { settings with defaultWeight := settings.defaultWeight.map (scale * ·) }

/-- The source with all weights on another scale. -/
def Source.scaled (source : Source Rat) : Source Rat :=
  { source with
    relationships := fun label =>
      (source.relationships label).map fun entry => (entry.1, entry.2.map (scale * ·)) }

/-- The link with its weight on another scale. -/
def Link.scaled {n : Nat} (link : Link n Rat) : Link n Rat :=
  { link with weight := link.weight.map (scale * ·) }

namespace Loading

variable {n : Nat} (storage : Storage) (settings : LoadSettings Rat) (source : Source Rat) (ids : IdMap)

theorem links_scaled (node : Fin ids.size) :
    links (source.scaled scale) ids node = (links source ids node).map (Link.scaled scale) := by
  unfold links Source.scaled
  rw [List.filterMap_map, List.map_filterMap]
  congr 1
  funext entry
  show (ids.node? entry.1).map (fun target => Link.mk target (entry.2.map (scale * ·)))
    = ((ids.node? entry.1).map fun target => Link.mk target entry.2).map (Link.scaled scale)
  rw [Option.map_map]
  rfl

theorem arrange_scaled (row : List (Link n Rat)) :
    arrange storage (row.map (Link.scaled scale)) = (arrange storage row).map (Link.scaled scale) := by
  cases storage with
  | dense => rfl
  | huge =>
    rw [arrange_huge, arrange_huge]
    exact (List.map_mergeSort (s := fun a b : Link n Rat => a.target ≤ b.target) fun _ _ _ _ => rfl).symm

theorem rowsOf_scaled :
    rowsOf storage (source.scaled scale) ids = (rowsOf storage source ids).map (List.map (Link.scaled scale)) := by
  ext node : 1
  rw [getElem_rowsOf, links_scaled, arrange_scaled, Table.getElem_map, getElem_rowsOf]

theorem targetsOf_scaled : targetsOf storage (source.scaled scale) ids = targetsOf storage source ids := by
  ext node : 1
  unfold targetsOf
  rw [rowsOf_scaled, Table.getElem_map, Table.getElem_map, Table.getElem_map, List.map_map]
  rfl

theorem weightTable_scaled (weights : List Rat) :
    weightTable storage (weights.map (scale * ·)) = (weightTable storage weights).scaled scale := by
  cases storage with
  | dense => exact congrArg Weights.table List.map_toArray.symm
  | huge => exact congrArg Weights.pages (Paged.ofList_map _ weights)

/-- The weights of scaled links are scaled, in the form in which they were kept before. -/
theorem weightsOf_scaled (links : List (Link n Rat)) :
    weightsOf (settings.scaled scale) storage (links.map (Link.scaled scale))
      = (weightsOf settings storage links).scaled scale := by
  have own : ((links.map (Link.scaled scale)).any fun link => link.weight.isSome)
      = links.any fun link => link.weight.isSome := by
    rw [List.any_map]
    congr 1
    funext link
    exact Option.isSome_map
  have table : ∀ default : Option Rat,
      weightTable storage ((links.map (Link.scaled scale)).map fun link =>
          (link.weight.or (default.map (scale * ·))).getD Scalar.zero)
        = (weightTable storage (links.map fun link => (link.weight.or default).getD Scalar.zero)).scaled scale := by
    intro default
    rw [← weightTable_scaled, List.map_map, List.map_map]
    congr 2
    funext link
    show ((link.weight.map (scale * ·)).or (default.map (scale * ·))).getD Scalar.zero
      = scale * (link.weight.or default).getD Scalar.zero
    rw [← Option.map_or]
    cases link.weight.or default with
    | none => exact (mul_zero scale).symm
    | some weight => rfl
  unfold weightsOf
  rw [own]
  by_cases weighted : settings.weighted
  · rw [if_pos weighted]
    refine (if_pos weighted).trans ?_
    unfold LoadSettings.scaled
    dsimp only
    cases settings.defaultWeight with
    | none => exact table none
    | some weight =>
      cases links.any fun link => link.weight.isSome with
      | false => rfl
      | true => exact table (some weight)
  · rw [if_neg weighted]
    exact if_neg weighted

theorem graphOf_scaled :
    graphOf storage (settings.scaled scale) (source.scaled scale) ids
      = (graphOf storage settings source ids).scaled scale := by
  have weights : weightsOf (settings.scaled scale) storage (rowsOf storage (source.scaled scale) ids).toList.flatten
      = (weightsOf settings storage (rowsOf storage source ids).toList.flatten).scaled scale := by
    rw [← weightsOf_scaled, rowsOf_scaled, Table.toList_map, List.map_flatten]
  unfold graphOf
  rw [weights, targetsOf_scaled]
  rfl

theorem kept_scaled :
    kept (source.scaled scale)
      = (kept source).map fun entry => (entry.1, entry.2.1, entry.2.2.map (scale * ·)) := by
  unfold kept
  rw [List.map_flatMap]
  congr 1
  funext label
  unfold keptFrom Source.scaled
  rw [List.filter_map, List.map_map, List.map_map]
  rfl

variable {scale} (positive : 0 < scale)

include positive

theorem unusableDefault_scaled :
    unusableDefault (settings.scaled scale) = none ↔ unusableDefault settings = none := by
  have sign : ∀ weight : Rat, scale * weight < Scalar.zero ↔ weight < Scalar.zero := by
    intro weight
    rw [← not_le, ← not_le]
    exact not_congr (mul_nonneg_iff_of_pos_left positive)
  unfold unusableDefault LoadSettings.scaled
  rw [Option.bind_map, Option.bind_eq_none_iff, Option.bind_eq_none_iff]
  refine forall_congr' fun weight => forall_congr' fun _ => ?_
  simp only [Function.comp_apply, Scalar.isFinite, sign, ite_eq_right_iff, reduceCtorEq]

omit positive in
theorem unweighted_scaled :
    unweighted (settings.scaled scale) (source.scaled scale) = unweighted settings source := by
  have unset : (settings.scaled scale).defaultWeight.isNone = settings.defaultWeight.isNone := Option.isNone_map
  unfold unweighted
  rw [unset, kept_scaled, List.find?_map, Option.map_map]
  simp only [Function.comp_def, Option.isNone_map]
  rfl

theorem refusal_scaled :
    refusal storage (settings.scaled scale) (source.scaled scale) = none ↔ refusal storage settings source = none := by
  have default := unusableDefault_scaled settings positive
  unfold refusal
  rw [unweighted_scaled]
  simp only [Option.orElse_eq_orElse, Option.orElse_eq_or, Option.or_eq_none_iff, default]
  rfl

variable {storage settings source}

/-- A source on another scale loads as the graph on that scale. -/
theorem loadInto_scaled {g : Graph Rat} (loaded : loadInto storage settings source = .ok g) :
    loadInto storage (settings.scaled scale) (source.scaled scale) = .ok (g.scaled scale) := by
  have stored := stored_of_loadInto loaded
  have fits : (kept source).length ≤ storage.capacity := by
    rw [← stored.relationshipCount_kept]
    exact (fits_of_loadInto loaded).2
  have fits' : (kept (source.scaled scale)).length ≤ storage.capacity := by
    rwa [kept_scaled, List.length_map]
  have outcome := loadInto_eq settings fits
  have outcome' := loadInto_eq (settings.scaled scale) fits'
  have accepted : refusal storage settings source = none := by
    cases refused : refusal storage settings source with
    | none => rfl
    | some e =>
      rw [refused, loaded] at outcome
      cases outcome
  rw [(refusal_scaled storage settings source positive).2 accepted] at outcome'
  obtain ⟨-, ids', listed', loaded'⟩ := outcome'
  obtain ⟨ids, numbered, -, -, rfl⟩ := loadInto_eq_ok loaded
  obtain rfl : ids = ids' := by
    have numbered' := (stored_of_loadInto loaded').ids
    exact Except.ok.inj (numbered.symm.trans numbered')
  rw [loaded', graphOf_scaled]

end Loading

end NetworkAnalysis
