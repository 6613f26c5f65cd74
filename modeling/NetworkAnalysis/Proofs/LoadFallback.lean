import NetworkAnalysis.Proofs.StorageAgreement

/-!
# Loads that choose their storage

A load that is free to choose its storage tries the dense one first and turns to the huge one when something does not
fit. All checks of a load are the same for both storages but for the capacities (`accept`), and what fits the smaller
one fits the larger one. So the attempt can only end in three ways: with a capacity error, which is given up; with an
error that the huge storage meets as well, as no check before it failed; or with a graph, and then the huge storage
holds the same graph (`Graph.Agrees`).
-/

namespace NetworkAnalysis

variable {α : Type} [Scalar α]

/-- Two graphs hold the same relationships. Those that leave a node may come in another order. -/
structure Graph.Agrees (g h : Graph α) : Prop where
  ids : g.ids = h.ids
  relationshipCount : g.relationshipCount = h.relationshipCount
  weighted : g.weighted = h.weighted
  degree : ∀ (node : Nat) (bound : node < g.size) (bound' : node < h.size) (direction : Direction),
    g.degree ⟨node, bound⟩ direction = h.degree ⟨node, bound'⟩ direction
  incoming : ∀ (node : Nat) (bound : node < g.size) (bound' : node < h.size),
    g.ends ⟨node, bound⟩ .incoming = h.ends ⟨node, bound'⟩ .incoming
  outgoing : ∀ (node : Nat) (bound : node < g.size) (bound' : node < h.size),
    (g.ends ⟨node, bound⟩ .outgoing).Perm (h.ends ⟨node, bound'⟩ .outgoing)

namespace Loading

variable {storage storage' : Storage} {settings : LoadSettings α} {source : Source α}

theorem Stored.perm_ends_outgoing {g : Graph α} (h : Stored storage settings source g) (node : Fin g.size) :
    (g.ends node .outgoing).Perm ((links source g.ids node).map (Link.seen settings)) := by
  rw [h.ends_outgoing]
  exact (perm_arrange storage _).map _

/-- The links of a source are one graph, wherever they are stored. -/
theorem Stored.agrees {g h : Graph α} (inFirst : Stored storage settings source g)
    (inSecond : Stored storage' settings source h) : g.Agrees h := by
  have same : h.ids = g.ids := Except.ok.inj (inSecond.ids.symm.trans inFirst.ids)
  obtain ⟨ids, adjacency, weights⟩ := h
  obtain rfl : ids = g.ids := same
  have incoming : ∀ node : Fin g.size,
      g.ends node .incoming = Graph.ends ⟨g.ids, adjacency, weights⟩ node .incoming := by
    intro node
    rw [inFirst.ends_incoming]
    exact (inSecond.ends_incoming node).symm
  have outgoing : ∀ node : Fin g.size,
      (g.ends node .outgoing).Perm (Graph.ends ⟨g.ids, adjacency, weights⟩ node .outgoing) := by
    intro node
    exact (inFirst.perm_ends_outgoing node).trans (inSecond.perm_ends_outgoing node).symm
  constructor
  case ids => rfl
  case relationshipCount => exact inFirst.relationshipCount_eq.trans inSecond.relationshipCount_eq.symm
  case weighted => exact inFirst.weighted_eq.trans inSecond.weighted_eq.symm
  case degree =>
    intro node bound bound' direction
    rw [inFirst.degree_eq, inSecond.degree_eq, incoming ⟨node, bound⟩, (outgoing ⟨node, bound⟩).length_eq]
  case incoming => exact fun node bound _ => incoming ⟨node, bound⟩
  case outgoing => exact fun node bound _ => outgoing ⟨node, bound⟩

/-! ## The checks of a load -/

/-- All that a load checks. What is left of it is the numbering of the nodes. -/
def accept (storage : Storage) (settings : LoadSettings α) (source : Source α) : Except Error IdMap := do
  checkCapacity storage "node" source.declared
  settings.validate
  let ids ← IdMap.ofList source.nodes
  checkCapacity storage "node" ids.size
  checkRows settings storage ids 0 ((List.finRange ids.size).map fun node => (node, links source ids node))
  pure ids

theorem loadInto_eq_map_accept (storage : Storage) (settings : LoadSettings α) (source : Source α) :
    loadInto storage settings source = (accept storage settings source).map (graphOf storage settings source) := by
  have mapped : (accept storage settings source).map (graphOf storage settings source)
      = graphOf storage settings source <$> accept storage settings source := rfl
  rw [mapped]
  simp only [loadInto, accept, Table.getElem_ofFn, map_bind, map_pure]
  rfl

/-! ## Checks against a larger capacity -/

/-- The second outcome is the first one, unless something did not fit there. -/
def UnlessFull {β : Type} (first second : Except Error β) : Prop :=
  (∀ e, first = .error e → isCapacityError e = false) → second = first

namespace UnlessFull

omit [Scalar α] in
theorem refl {β : Type} (outcome : Except Error β) : UnlessFull outcome outcome := fun _ => rfl

omit [Scalar α] in
theorem bind {β γ : Type} {first second : Except Error β} {next next' : β → Except Error γ}
    (h : UnlessFull first second) (later : ∀ x, UnlessFull (next x) (next' x)) :
    UnlessFull (first >>= next) (second >>= next') := by
  intro fits
  have same : second = first := h fun e failed => fits e (by rw [failed]; rfl)
  rw [same]
  cases result : first with
  | error e => rfl
  | ok x =>
    rw [result] at fits
    exact later x fits

omit [Scalar α] in
theorem checkCapacity (larger : storage.capacity ≤ storage'.capacity) (what : String) (requested : Nat) :
    UnlessFull (checkCapacity storage what requested) (checkCapacity storage' what requested) := by
  intro fits
  unfold Loading.checkCapacity at fits ⊢
  by_cases beyond : storage.capacity < requested
  · rw [if_pos beyond] at fits
    cases fits _ rfl
  · rw [if_neg beyond, if_neg (by omega)]

omit [Scalar α] in
theorem checkRows (larger : storage.capacity ≤ storage'.capacity) {ids : IdMap}
    (rows : List (Fin ids.size × List (Link ids.size α))) (total : Nat) :
    UnlessFull (checkRows settings storage ids total rows) (checkRows settings storage' ids total rows) := by
  induction rows generalizing total with
  | nil => exact refl _
  | cons entry rest ih =>
    rw [Loading.checkRows, Loading.checkRows]
    split
    · exact refl _
    · exact (checkCapacity larger _ _).bind fun _ => ih _

theorem accept (larger : storage.capacity ≤ storage'.capacity) (settings : LoadSettings α) (source : Source α) :
    UnlessFull (accept storage settings source) (accept storage' settings source) := by
  refine (checkCapacity larger _ _).bind fun _ => (refl _).bind fun _ => (refl _).bind fun ids => ?_
  exact (checkCapacity larger _ _).bind fun _ => (checkRows larger _ _).bind fun _ => refl _

end UnlessFull

/-! ## Whose capacity -/

/-- Where a capacity is named, it is the capacity of this storage. -/
def NamesOwn {β : Type} (storage : Storage) (outcome : Except Error β) : Prop :=
  ∀ backend what requested limit, outcome = .error (.capacity backend what requested limit) → backend = storage.name

namespace NamesOwn

omit [Scalar α] in
theorem ok {β : Type} (x : β) : NamesOwn storage (.ok x : Except Error β) := by
  intro backend what requested limit failed
  cases failed

omit [Scalar α] in
theorem bind {β γ : Type} {outcome : Except Error β} {next : β → Except Error γ} (h : NamesOwn storage outcome)
    (later : ∀ x, NamesOwn storage (next x)) : NamesOwn storage (outcome >>= next) := by
  intro backend what requested limit failed
  rcases bind_eq_error failed with first | ⟨x, -, second⟩
  · exact h backend what requested limit first
  · exact later x backend what requested limit second

omit [Scalar α] in
theorem checkCapacity (storage : Storage) (what : String) (requested : Nat) :
    NamesOwn storage (checkCapacity storage what requested) := by
  intro backend what' requested' limit failed
  unfold Loading.checkCapacity capacityError at failed
  split at failed
  · cases failed
    rfl
  · cases failed

omit [Scalar α] in
theorem checkRows {ids : IdMap} (rows : List (Fin ids.size × List (Link ids.size α))) (total : Nat) :
    NamesOwn storage (checkRows settings storage ids total rows) := by
  induction rows generalizing total with
  | nil => exact ok ()
  | cons entry rest ih =>
    rw [Loading.checkRows]
    split
    · intro backend what requested limit failed
      cases failed
    · exact (checkCapacity _ _ _).bind fun _ => ih _

theorem validate (settings : LoadSettings α) : NamesOwn storage settings.validate := by
  intro backend what requested limit failed
  unfold LoadSettings.validate at failed
  split at failed
  · cases failed
  · split at failed <;> cases failed

omit [Scalar α] in
theorem ofList (labels : List Nat) : NamesOwn storage (IdMap.ofList labels) := by
  intro backend what requested limit failed
  have numbered := IdMap.ofList_cases labels
  split at numbered
  · rw [numbered] at failed
    cases failed
  · obtain ⟨ids, found, -⟩ := numbered
    rw [found] at failed
    cases failed

theorem accept (storage : Storage) (settings : LoadSettings α) (source : Source α) :
    NamesOwn storage (accept storage settings source) := by
  refine (checkCapacity _ _ _).bind fun _ => (validate _).bind fun _ => (ofList _).bind fun ids => ?_
  exact (checkCapacity _ _ _).bind fun _ => (checkRows _ _).bind fun _ => ok _

end NamesOwn

/-! ## The choice -/

/-- The settings with the choice of the storage left to the load. -/
def anyStorage (settings : LoadSettings α) : LoadSettings α :=
  { settings with backend := .auto }

omit [Scalar α] in
theorem checkRows_anyStorage {ids : IdMap} (rows : List (Fin ids.size × List (Link ids.size α))) (total : Nat) :
    checkRows (anyStorage settings) storage ids total rows = checkRows settings storage ids total rows := by
  induction rows generalizing total with
  | nil => rfl
  | cons entry rest ih =>
    rw [checkRows, checkRows]
    simp only [ih]
    rfl

/-- Once the storage is chosen, nothing depends on who has chosen it. -/
theorem loadInto_anyStorage (storage : Storage) (settings : LoadSettings α) (source : Source α) :
    loadInto storage (anyStorage settings) source = loadInto storage settings source := by
  unfold loadInto
  simp only [checkRows_anyStorage]
  rfl

theorem load_anyStorage_eq (settings : LoadSettings α) (source : Source α) :
    load (anyStorage settings) source
      = if Storage.dense.capacity < source.declared then loadInto .huge settings source
        else match loadInto .dense settings source with
          | .error e => if isCapacityError e then loadInto .huge settings source else .error e
          | .ok graph => .ok graph := by
  unfold load
  rw [loadInto_anyStorage, loadInto_anyStorage]
  rfl

theorem capacity_dense_le_huge : Storage.dense.capacity ≤ Storage.huge.capacity := by
  decide

/-- A load that chooses its storage is the load into the huge one, or both storages take the source. -/
theorem load_anyStorage_cases (settings : LoadSettings α) (source : Source α) :
    load (anyStorage settings) source = loadInto .huge settings source
      ∨ ∃ g h, load (anyStorage settings) source = .ok g ∧ loadInto .dense settings source = .ok g
        ∧ loadInto .huge settings source = .ok h := by
  have grown := UnlessFull.accept capacity_dense_le_huge settings source
  have dense := loadInto_eq_map_accept .dense settings source
  have huge := loadInto_eq_map_accept .huge settings source
  have chosen := load_anyStorage_eq settings source
  by_cases beyond : Storage.dense.capacity < source.declared
  · exact .inl (chosen.trans (if_pos beyond))
  rw [if_neg beyond] at chosen
  cases checked : accept .dense settings source with
  | error e =>
    rw [checked] at dense
    rw [dense] at chosen
    refine .inl ?_
    rcases full : isCapacityError e with _ | _
    · have same := grown fun e' failed => by
        rw [checked] at failed
        cases failed
        exact full
      rw [chosen, huge, same, checked]
      simp [full, Except.map]
    · rw [chosen]
      simp [full, Except.map]
  | ok ids =>
    have same := grown fun e failed => by
      rw [checked] at failed
      cases failed
    rw [checked] at dense
    rw [same, checked] at huge
    rw [dense] at chosen
    exact .inr ⟨_, _, chosen, dense, huge⟩

/-- A load that chooses its storage succeeds when the huge storage takes the source, and then holds the same graph; it
fails as the huge storage does, and never for the capacity of the dense one. -/
theorem load_anyStorage (settings : LoadSettings α) (source : Source α) :
    let chosen := load (anyStorage settings) source
    let huge := loadInto .huge settings source
    ((∃ g, chosen = .ok g) ↔ ∃ h, huge = .ok h)
      ∧ (∀ e, chosen = .error e ↔ huge = .error e)
      ∧ (∀ g h, chosen = .ok g → huge = .ok h → g.Agrees h)
      ∧ ∀ what requested limit, chosen ≠ .error (.capacity Storage.dense.name what requested limit) := by
  dsimp only
  rcases load_anyStorage_cases settings source with same | ⟨g, h, chosen, dense, huge⟩
  · rw [same]
    refine ⟨Iff.rfl, fun e => Iff.rfl, fun g h loaded loaded' => ?_, fun what requested limit failed => ?_⟩
    · exact (stored_of_loadInto loaded).agrees (stored_of_loadInto loaded')
    · rw [loadInto_eq_map_accept] at failed
      cases checked : accept .huge settings source with
      | error e =>
        rw [checked] at failed
        have name := NamesOwn.accept .huge settings source Storage.dense.name what requested limit
          (checked.trans (congrArg _ (Except.error.inj failed)))
        exact absurd name (by decide)
      | ok ids =>
        rw [checked] at failed
        cases failed
  · rw [chosen, huge]
    refine ⟨⟨fun _ => ⟨h, rfl⟩, fun _ => ⟨g, rfl⟩⟩, fun e => ?_, fun g' h' loaded loaded' => ?_, ?_⟩
    · constructor <;> intro failed <;> cases failed
    · cases loaded
      cases loaded'
      exact (stored_of_loadInto dense).agrees (stored_of_loadInto huge)
    · intro what requested limit failed
      cases failed

end Loading

end NetworkAnalysis
