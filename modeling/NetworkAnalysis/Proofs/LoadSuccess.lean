import NetworkAnalysis.Proofs.LoadOutcome

/-!
# When a load succeeds

A load succeeds where there is nothing to refuse: the settings are usable, no label is listed twice, every
relationship that needs a weight has one, and all counts are within the capacity of the storage. What has been loaded
is within it.
-/

namespace NetworkAnalysis

namespace Loading

variable {α : Type} [Scalar α] {storage : Storage} {settings : LoadSettings α} {source : Source α}

/-- Every relationship that needs a weight of its own has one. -/
def Heavy (settings : LoadSettings α) (source : Source α) : Prop :=
  settings.weighted → settings.defaultWeight = none →
    ∀ label ∈ source.nodes, ∀ entry ∈ source.relationships label, entry.2.isSome

omit [Scalar α] in
theorem unweighted_eq_none (heavy : Heavy settings source) : unweighted settings source = none := by
  unfold unweighted
  split
  · next needed =>
    simp only [Bool.and_eq_true, Option.isNone_iff_eq_none] at needed
    rw [Option.map_eq_none_iff, List.find?_eq_none]
    intro entry member
    simp only [kept, keptFrom, List.mem_flatMap, List.mem_map, List.mem_filter] at member
    obtain ⟨label, here, _, ⟨inside, -⟩, rfl⟩ := member
    have own := heavy needed.1 needed.2 label here _ inside
    simpa using Option.ne_none_iff_isSome.2 own
  · rfl

omit [Scalar α] in
theorem length_kept_le (source : Source α) :
    (kept source).length ≤ (source.nodes.map fun label => (source.relationships label).length).sum := by
  rw [kept, List.length_flatMap]
  refine List.sum_le_sum fun label _ => ?_
  rw [List.length_map]
  exact List.length_filter_le _ _

/-- A load succeeds where there is nothing to refuse, and numbers the nodes as they are listed. -/
theorem exists_loadInto (declared : source.declared ≤ storage.capacity)
    (valid : settings.validate = .ok ()) (distinct : source.nodes.Nodup)
    (nodes : source.nodes.length ≤ storage.capacity) (heavy : Heavy settings source)
    (relationships : (source.nodes.map fun label => (source.relationships label).length).sum
      ≤ storage.capacity) :
    ∃ g : Graph α, loadInto storage settings source = .ok g
      ∧ g.ids.labels.toList = source.nodes := by
  have usable : unusableDefault settings = none := by
    rw [validate_eq_raise] at valid
    cases unusable : unusableDefault settings with
    | none => rfl
    | some e =>
      rw [unusable] at valid
      cases valid
  have accepted : refusal storage settings source = none := by
    rw [refusal, usable, IdMap.firstRepeated_eq_none distinct, unweighted_eq_none heavy, excess, excess,
      if_neg (Nat.not_lt.2 declared), if_neg (Nat.not_lt.2 nodes)]
    rfl
  have outcome := loadInto_eq settings ((length_kept_le source).trans relationships)
  rw [accepted] at outcome
  obtain ⟨-, ids, listed, loaded⟩ := outcome
  exact ⟨_, loaded, listed⟩

/-! ## What fits -/

omit [Scalar α] in
theorem total_le_of_checkRows {ids : IdMap} (rows : List (Fin ids.size × List (Link ids.size α))) {total : Nat}
    (within : total ≤ storage.capacity) (checked : checkRows settings storage ids total rows = .ok ()) :
    total + (rows.map fun entry => entry.2.length).sum ≤ storage.capacity := by
  induction rows generalizing total with
  | nil => exact within
  | cons entry rest ih =>
    rw [checkRows] at checked
    split at checked
    · cases checked
    · obtain ⟨_, fits, later⟩ := bind_eq_ok checked
      rw [List.map_cons, List.sum_cons, ← Nat.add_assoc]
      exact ih (le_of_checkCapacity fits) later

/-- What has been loaded is within the capacity. -/
theorem fits_of_loadInto {g : Graph α} (loaded : loadInto storage settings source = .ok g) :
    g.size ≤ storage.capacity ∧ g.relationshipCount ≤ storage.capacity := by
  have stored := stored_of_loadInto loaded
  obtain ⟨ids, numbered, size, checked, rfl⟩ := loadInto_eq_ok loaded
  refine ⟨size, ?_⟩
  have total := total_le_of_checkRows _ (Nat.zero_le _) checked
  rw [List.map_map, Nat.zero_add] at total
  rwa [stored.relationshipCount_eq]

/-! ## A small load -/

theorem exists_load_junctions (storage : Storage) :
    ∃ g : Graph Rat, loadInto storage fiveByDefault junctions = .ok g
      ∧ g.ids.labels.toList = [10, 20, 30, 40] := by
  refine exists_loadInto ?_ (by decide) (by decide) ?_ ?_ ?_
  · cases storage <;> decide
  · cases storage <;> decide
  · intro _ unset
    cases unset
  · cases storage <;> decide

/-- What holds of all weights that are listed holds of the weights of all links. -/
theorem forall_links {P : α → Prop}
    (given : ∀ label, ∀ entry ∈ source.relationships label,
      P (if settings.weighted then (entry.2.or settings.defaultWeight).getD Scalar.zero else Scalar.one))
    (ids : IdMap) (node : Fin ids.size) : ∀ link ∈ links source ids node, P (link.value settings) := by
  intro link member
  simp only [links, List.mem_filterMap, Option.map_eq_some_iff] at member
  obtain ⟨entry, listed, _, _, rfl⟩ := member
  exact given _ entry listed

theorem nonnegative_junctions (ids : IdMap) (node : Fin ids.size) :
    ∀ link ∈ links junctions ids node, Scalar.zero ≤ link.value fiveByDefault := by
  refine forall_links (fun label entry member => ?_) ids node
  unfold junctions at member
  dsimp only at member
  split at member <;> revert entry <;> decide

end Loading

end NetworkAnalysis
