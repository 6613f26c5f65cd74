import NetworkAnalysis.Command.ValueFile
import NetworkAnalysis.Proofs.Export

/-!
# What a file with values holds

The writer of lines takes whatever it is given, so only the watch ends an export early. A file that is complete has a
line for every value of every property, the nodes of each property in order (`ExportedFile.Holds`), and the number of
values is the number of lines in any case.
-/

namespace NetworkAnalysis

namespace Export

/-- What is due of all nodes, node by node. -/
theorem due_size {α : Type} (ids : IdMap) (name : String) (translate : Translator α) :
    due ids name translate ids.size
      = (List.finRange ids.size).filterMap fun v : Fin ids.size =>
          (translate v).map fun value => { label := ids.label v, name, value } := by
  rw [due, ← List.map_coe_finRange_eq_range, List.filterMap_map]
  exact List.filterMap_congr fun v _ => property?_of_lt v.isLt

/-- A watch that says no to the question of no batch lets all nodes through. -/
theorem size_le_bound {ids : IdMap} {stop : Option Nat} (late : ¬∃ j ∈ stop, j < ids.size ⌈/⌉ exportBatch) :
    ids.size ≤ bound ids stop := by
  cases stop with
  | none => exact Nat.le_refl _
  | some j => exact Nat.not_lt.1 fun inside => late ⟨j, rfl, lt_batches_iff.2 inside⟩

end Export

namespace Command

theorem foldlM_lineWriter (properties : List (Property Float)) (lines : List String) :
    properties.foldlM lineWriter lines = .ok ((properties.map propertyLine).reverse ++ lines) := by
  induction properties generalizing lines with
  | nil => rfl
  | cons property rest ih =>
    rw [List.map_cons, List.reverse_cons, List.append_assoc]
    exact ih (propertyLine property :: lines)

/-- What is to be written about a property of all nodes. -/
def Exportable.due (ids : IdMap) (property : Exportable) : List (Property Float) :=
  Export.due ids property.name property.values ids.size

/-- What a file holds of some properties: a line for each value, all of them if it is complete. -/
structure ExportedFile.Holds (ids : IdMap) (properties : List Exportable) (file : ExportedFile) : Prop where
  written : file.written = file.lines.length
  all : file.completed = true →
    file.lines.reverse = (properties.flatMap fun property => property.due ids).map propertyLine

variable {ids : IdMap} {properties : List Exportable} {file : ExportedFile}

/-- One more property adds the lines of the nodes below the bound. -/
theorem ExportedFile.add_eq {watch : Watch} {stop : Option Nat} (stops : (watch.after file.polls).FirstNo stop)
    (property : Exportable) :
    let due := Export.due ids property.name property.values (Export.bound ids stop)
    let batches := ids.size ⌈/⌉ Export.exportBatch
    file.add ids watch property =
      { lines := (due.map propertyLine).reverse ++ file.lines
        written := file.written + due.length
        completed := file.completed && decide (¬∃ j ∈ stop, j < batches)
        polls := file.polls + Export.questions batches stop } := by
  intro due batches
  have course := Export.write_of_taken stops (foldlM_lineWriter due file.lines)
  unfold ExportedFile.add
  rw [course]
  by_cases early : ∃ j ∈ stop, j < batches
  · simp only [batches] at early ⊢
    rw [if_pos early, decide_eq_false (not_not.2 early)]
  · simp only [batches] at early ⊢
    rw [if_neg early, decide_eq_true early]

theorem ExportedFile.Holds.add (h : file.Holds ids properties) (watch : Watch) (property : Exportable) :
    (file.add ids watch property).Holds ids (properties ++ [property]) := by
  obtain ⟨stop, stops⟩ := (watch.after file.polls).exists_firstNo
  rw [ExportedFile.add_eq stops]
  constructor
  case written =>
    dsimp only
    rw [h.written, List.length_append, List.length_reverse, List.length_map, Nat.add_comm]
  case all =>
    dsimp only
    rw [Bool.and_eq_true, decide_eq_true_iff]
    rintro ⟨before, late⟩
    rw [Export.due_of_le (Export.size_le_bound late), List.reverse_append, List.reverse_reverse, h.all before,
      List.flatMap_append, List.flatMap_singleton, List.map_append]
    rfl

theorem exportAll_concat (ids : IdMap) (properties : List Exportable) (property : Exportable) (watch : Watch) :
    exportAll ids (properties ++ [property]) watch = (exportAll ids properties watch).add ids watch property := by
  rw [exportAll, List.foldl_append]
  rfl

/-- An export of several properties adds the lines of one after those of the other. -/
theorem holds_exportAll (ids : IdMap) (properties : List Exportable) (watch : Watch) :
    (exportAll ids properties watch).Holds ids properties := by
  induction properties using List.reverseRecOn with
  | nil => exact ⟨rfl, fun _ => rfl⟩
  | append_singleton properties property ih =>
    rw [exportAll_concat]
    exact ih.add watch property

/-- A file is complete if the watch never says no. -/
theorem completed_exportAll (ids : IdMap) (properties : List Exportable) :
    (exportAll ids properties .always).completed = true := by
  induction properties using List.reverseRecOn with
  | nil => rfl
  | append_singleton properties property ih =>
    have stops : (Watch.always.after (exportAll ids properties .always).polls).FirstNo none := fun _ => rfl
    rw [exportAll_concat, ExportedFile.add_eq stops, ih]
    rfl

end Command

end NetworkAnalysis
