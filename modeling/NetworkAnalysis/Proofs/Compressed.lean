import NetworkAnalysis.Adjacency.Compressed
import NetworkAnalysis.Proofs.Varint
import NetworkAnalysis.Proofs.Visitor

/-!
# Compressed lists are read back

Lists of ascending words, pushed one by one, are shown again exactly as they were: the list of each node
in order, each entry with the number of entries before it in all lists.
-/

namespace NetworkAnalysis.Adjacency.Compressed

variable {σ : Type}

/-! ## Decoding -/

/-- Where the differences of an ascending list of words stand in the bytes, its entries are shown. -/
theorem visitFrom_eq_visitList {a : Compressed} (well : a.bytes.WellFormed)
    (visitor : Visitor σ (Nat × Nat)) {values : List Nat} {cursor : Paged.Cursor} {previous : Nat}
    {rest : List UInt8} (faces : a.bytes.Faces cursor (Builder.differences previous values ++ rest))
    (ascending : (previous :: values).Pairwise (· ≤ ·)) (words : ∀ value ∈ values, value < wordValues)
    (number : Nat) (state : σ) :
    visitFrom a visitor values.length cursor previous number state
      = visitList visitor state (values.zipIdx number) := by
  induction values generalizing cursor previous number state with
  | nil => rfl
  | cons value values ih =>
    rw [List.pairwise_cons] at ascending
    rw [List.forall_mem_cons] at words
    obtain ⟨least, ascending⟩ := ascending
    have step : previous ≤ value := least value List.mem_cons_self
    have word : value - previous < wordValues := Nat.lt_of_le_of_lt (Nat.sub_le _ _) words.1
    rw [Builder.differences, List.append_assoc] at faces
    obtain ⟨next, here, faces⟩ := Varint.readAt_encode well word faces
    rw [List.length_cons, visitFrom, here, List.zipIdx_cons, visitList]
    simp only [Nat.add_sub_cancel' step]
    rcases visitor state (value, number) with ⟨state', more⟩
    cases more with
    | false => rfl
    | true => exact ih faces ascending words.2 _ _

/-! ## Encoding -/

/-- The bytes of lists, one list behind the other. -/
def bytesOf (lists : List (List Nat)) : List UInt8 :=
  lists.flatMap (Builder.differences 0)

/-- The values of a function of the first lists: of none, of one, and so on, but not of all. -/
def runningValues {β γ : Type} (f : List β → γ) (lists : List β) : List γ :=
  (List.range lists.length).map fun k => f (lists.take k)

theorem runningValues_append_singleton {β γ : Type} (f : List β → γ) (lists : List β) (list : β) :
    runningValues f (lists ++ [list]) = runningValues f lists ++ [f lists] := by
  unfold runningValues
  rw [List.length_append, List.length_singleton, List.range_succ, List.map_append, List.map_singleton]
  congr 1
  · refine List.map_congr_left fun k member => ?_
    rw [List.take_append_of_le_length (Nat.le_of_lt (List.mem_range.1 member))]
  · rw [List.take_left]

theorem getElem?_runningValues {β γ : Type} (f : List β → γ) {lists : List β} {k : Nat}
    (h : k < lists.length) : (runningValues f lists)[k]? = some (f (lists.take k)) := by
  rw [runningValues, List.getElem?_map, List.getElem?_range h, Option.map_some]

namespace Builder

/-- A builder to which lists have been pushed. -/
structure Holds (b : Builder) (lists : List (List Nat)) : Prop where
  wellFormed_starts : b.starts.WellFormed
  wellFormed_firsts : b.firsts.WellFormed
  wellFormed_bytes : b.bytes.WellFormed
  starts : b.starts.toList = runningValues (fun front => (bytesOf front).length) lists
  firsts : b.firsts.toList = runningValues (fun front => front.flatten.length) lists
  bytes : b.bytes.toList = bytesOf lists
  entries : b.entries = lists.flatten.length

theorem holds_empty : Holds empty [] where
  wellFormed_starts := Paged.Builder.wellFormed_empty
  wellFormed_firsts := Paged.Builder.wellFormed_empty
  wellFormed_bytes := Paged.Builder.wellFormed_empty
  starts := rfl
  firsts := rfl
  bytes := rfl
  entries := rfl

theorem Holds.pushSorted {b : Builder} {lists : List (List Nat)} (h : b.Holds lists)
    (values : List Nat) : (b.pushSorted values).Holds (lists ++ [values]) where
  wellFormed_starts := Paged.Builder.wellFormed_push h.wellFormed_starts _
  wellFormed_firsts := Paged.Builder.wellFormed_push h.wellFormed_firsts _
  wellFormed_bytes := Paged.Builder.wellFormed_append h.wellFormed_bytes _
  starts := by
    rw [Builder.pushSorted, Paged.Builder.toList_push, h.starts, runningValues_append_singleton,
      ← Paged.Builder.length_toList h.wellFormed_bytes, h.bytes]
  firsts := by
    rw [Builder.pushSorted, Paged.Builder.toList_push, h.firsts, runningValues_append_singleton,
      h.entries]
  bytes := by
    rw [Builder.pushSorted, Paged.Builder.toList_append, h.bytes, bytesOf, bytesOf, List.flatMap_append]
    simp
  entries := by
    rw [Builder.pushSorted, h.entries]
    simp

theorem Holds.foldl_pushSorted {b : Builder} {lists : List (List Nat)} (h : b.Holds lists)
    (more : List (List Nat)) : (more.foldl Builder.pushSorted b).Holds (lists ++ more) := by
  induction more generalizing b lists with
  | nil => rwa [List.append_nil]
  | cons values more ih =>
    rw [List.foldl_cons, List.append_cons]
    exact ih (h.pushSorted values)

end Builder

/-! ## The finished lists -/

/-- The arrays of compressed lists. -/
structure Holds (a : Compressed) (lists : List (List Nat)) : Prop where
  wellFormed_bytes : a.bytes.WellFormed
  starts : ∀ node < lists.length, a.starts.get? node = some (bytesOf (lists.take node)).length
  firsts : ∀ node ≤ lists.length, a.firsts.get? node = some (lists.take node).flatten.length
  size_firsts : a.firsts.size = lists.length + 1
  bytes : a.bytes.toList = bytesOf lists

theorem holds_ofLists (lists : List (List Nat)) : (ofLists lists).Holds lists := by
  have built : (lists.foldl Builder.pushSorted .empty).Holds lists := by
    simpa using Builder.holds_empty.foldl_pushSorted lists
  have firstsWell := Paged.Builder.wellFormed_push built.wellFormed_firsts lists.flatten.length
  have firsts : (lists.foldl Builder.pushSorted .empty).firsts.toList ++ [lists.flatten.length]
      = runningValues (fun front => front.flatten.length) (lists ++ [[]]) := by
    rw [runningValues_append_singleton, built.firsts]
  unfold ofLists Builder.build
  refine ⟨Paged.Builder.wellFormed_build built.wellFormed_bytes, ?_, ?_, ?_, ?_⟩
  · intro node bound
    rw [Paged.get?_eq_getElem?_toList (Paged.Builder.wellFormed_build built.wellFormed_starts),
      Paged.Builder.toList_build, built.starts, getElem?_runningValues _ bound]
  · intro node bound
    simp only [built.entries]
    rw [Paged.get?_eq_getElem?_toList (Paged.Builder.wellFormed_build firstsWell),
      Paged.Builder.toList_build, Paged.Builder.toList_push, firsts,
      getElem?_runningValues _ (by simpa using Nat.lt_succ_of_le bound),
      List.take_append_of_le_length bound]
  · simp only [built.entries]
    rw [← Paged.length_toList (Paged.Builder.wellFormed_build firstsWell),
      Paged.Builder.toList_build, Paged.Builder.toList_push, firsts]
    simp [runningValues]
  · rw [Paged.Builder.toList_build, built.bytes]

namespace Holds

variable {a : Compressed} {lists : List (List Nat)}

theorem first_eq (h : a.Holds lists) {node : Nat} (bound : node ≤ lists.length) :
    a.first node = (lists.take node).flatten.length := by
  rw [first, h.firsts node bound, Option.getD_some]

theorem degree_eq (h : a.Holds lists) {node : Nat} (bound : node < lists.length) :
    a.degree node = lists[node].length := by
  rw [degree, h.first_eq bound, h.first_eq (Nat.le_of_lt bound),
    List.take_succ_eq_append_getElem bound, List.flatten_append, List.length_append]
  simp

theorem entryCount_eq (h : a.Holds lists) : a.entryCount = lists.flatten.length := by
  rw [entryCount, h.size_firsts, Nat.add_sub_cancel, h.first_eq (Nat.le_refl _), List.take_length]

/-- At the start of a list stand its differences, and behind them those of the later lists. -/
theorem faces_start (h : a.Holds lists) {node : Nat} (bound : node < lists.length) :
    a.bytes.Faces (.ofIndex ((a.starts.get? node).getD 0))
      (Builder.differences 0 lists[node] ++ bytesOf (lists.drop (node + 1))) := by
  have cut : bytesOf lists = bytesOf (lists.take node)
      ++ (Builder.differences 0 lists[node] ++ bytesOf (lists.drop (node + 1))) := by
    have parts : lists = lists.take node ++ (lists[node] :: lists.drop (node + 1)) := by
      rw [← List.drop_eq_getElem_cons bound, List.take_append_drop]
    calc bytesOf lists
        = bytesOf (lists.take node ++ (lists[node] :: lists.drop (node + 1))) := by rw [← parts]
      _ = _ := by rw [bytesOf, bytesOf, bytesOf, List.flatMap_append, List.flatMap_cons]
  have faces := Paged.faces_ofIndex h.wellFormed_bytes (bytesOf (lists.take node)).length
  rw [h.bytes, cut, List.drop_left] at faces
  rwa [h.starts node bound, Option.getD_some]

/-- The list of a node is shown in order, its first entry numbered by the entries before it. -/
theorem visit_eq_visitList (h : a.Holds lists) {node : Nat} (bound : node < lists.length)
    (ascending : lists[node].Pairwise (· ≤ ·)) (words : ∀ value ∈ lists[node], value < wordValues)
    (visitor : Visitor σ (Nat × Nat)) (state : σ) :
    a.visit node visitor state =
      visitList visitor state (lists[node].zipIdx (lists.take node).flatten.length) := by
  rw [visit, h.degree_eq bound, h.first_eq (Nat.le_of_lt bound)]
  exact visitFrom_eq_visitList h.wellFormed_bytes visitor (h.faces_start bound)
    (List.pairwise_cons.2 ⟨fun _ _ => Nat.zero_le _, ascending⟩) words _ state

end Holds

/-! ## Round trip -/

/-- Each entry of a list with the entry that is subtracted from it. -/
def subtractions (previous : Nat) (values : List Nat) : List (Nat × Nat) :=
  values.zip (previous :: values)

theorem differences_eq_flatMap (previous : Nat) (values : List Nat) :
    Builder.differences previous values
      = ((subtractions previous values).map fun (value, previous) => value - previous).flatMap Varint.encode := by
  unfold subtractions
  induction values generalizing previous with
  | nil => rfl
  | cons value values ih => rw [Builder.differences, ih, List.zip_cons_cons, List.map_cons, List.flatMap_cons]

/-- In an ascending list no entry is smaller than what is subtracted from it. -/
theorem le_of_mem_subtractions {previous : Nat} {values : List Nat}
    (ascending : (previous :: values).Pairwise (· ≤ ·)) :
    ∀ step ∈ subtractions previous values, step.2 ≤ step.1 := by
  unfold subtractions
  induction values generalizing previous with
  | nil => simp
  | cons value values ih =>
    obtain ⟨least, ascending⟩ := List.pairwise_cons.1 ascending
    rw [List.zip_cons_cons, List.forall_mem_cons]
    exact ⟨least value List.mem_cons_self, ih ascending⟩

theorem differences_lt {previous : Nat} {values : List Nat} (words : ∀ value ∈ values, value < wordValues) :
    ∀ difference ∈ (subtractions previous values).map fun (value, previous) => value - previous,
      difference < wordValues := by
  intro difference member
  obtain ⟨⟨value, before⟩, pair, rfl⟩ := List.mem_map.1 member
  exact Nat.lt_of_le_of_lt (Nat.sub_le _ _) (words value (List.of_mem_zip pair).1)

/-- The bytes of all differences of a list can be read. -/
theorem Holds.readMany_differences {a : Compressed} {lists : List (List Nat)} (h : a.Holds lists) {node : Nat}
    (bound : node < lists.length) (words : ∀ value ∈ lists[node], value < wordValues) :
    ∃ cursor, Varint.readMany a.bytes lists[node].length (.ofIndex ((a.starts.get? node).getD 0))
      = some ((subtractions 0 lists[node]).map fun (value, previous) => value - previous, cursor) := by
  have faces := h.faces_start bound
  rw [differences_eq_flatMap] at faces
  obtain ⟨cursor, read, -⟩ := Varint.readMany_encode h.wellFormed_bytes (differences_lt words) faces
  refine ⟨cursor, ?_⟩
  rw [← read]
  simp [subtractions]

/-- Ascending lists of words that are pushed one by one are shown again: each node has the length of its list, and
every visitor is shown the entries of that list in order, numbered from the entries before it, until it declines one.
On the way nothing is subtracted from a smaller number, and no byte is missing. -/
theorem ofLists_shows {lists : List (List Nat)} (ascending : ∀ list ∈ lists, list.Pairwise (· ≤ ·))
    (words : ∀ list ∈ lists, ∀ value ∈ list, value < wordValues) {node : Nat} (bound : node < lists.length) :
    let a := ofLists lists
    let entries := lists[node].zipIdx (lists.take node).flatten.length
    a.degree node = lists[node].length
      ∧ (∀ {σ : Type} (visitor : Visitor σ (Nat × Nat)) (state : σ),
          a.visit node visitor state = visitList visitor state entries)
      ∧ (∀ {σ : Type} (visitor : Visitor σ (Nat × Nat)) (state seen declined : σ) (front behind : List (Nat × Nat))
          (entry : Nat × Nat), entries = front ++ entry :: behind → visitList visitor state front = (seen, true) →
          visitor seen entry = (declined, false) → a.visit node visitor state = (declined, false))
      ∧ Builder.differences 0 lists[node]
          = ((subtractions 0 lists[node]).map fun (value, previous) => value - previous).flatMap Varint.encode
      ∧ (∀ step ∈ subtractions 0 lists[node], step.2 ≤ step.1)
      ∧ ∃ cursor, Varint.readMany a.bytes (a.degree node) (.ofIndex ((a.starts.get? node).getD 0))
          = some ((subtractions 0 lists[node]).map fun (value, previous) => value - previous, cursor) := by
  intro a entries
  have holds : a.Holds lists := holds_ofLists lists
  have ascending := ascending _ (List.getElem_mem bound)
  have words := words _ (List.getElem_mem bound)
  have degree := holds.degree_eq bound
  have shown : ∀ {σ : Type} (visitor : Visitor σ (Nat × Nat)) (state : σ),
      a.visit node visitor state = visitList visitor state entries :=
    fun visitor state => holds.visit_eq_visitList bound ascending words visitor state
  refine ⟨degree, shown, ?_, differences_eq_flatMap 0 _,
    le_of_mem_subtractions (List.pairwise_cons.2 ⟨fun _ _ => Nat.zero_le _, ascending⟩), ?_⟩
  · intro σ visitor state seen declined front behind entry parts accepted stops
    rw [shown, parts, visitList_append, accepted]
    simp only [visitList, stops]
  · rw [degree]
    exact holds.readMany_differences bound words

/-- Between two empty lists, one that repeats an entry; its visitor declines the second entry. -/
theorem ofLists_shows_repeats :
    let lists := [[], [3, 3, wordValues - 1], []]
    ((∀ list ∈ lists, list.Pairwise (· ≤ ·)) ∧ (∀ list ∈ lists, ∀ value ∈ list, value < wordValues)
        ∧ 1 < lists.length)
      ∧ (ofLists lists).degree 1 = 3
      ∧ (ofLists lists).visit 1 (fun shown _ => (shown + 1, shown == 0)) 0 = (2, false) := by
  intro lists
  have ascending : ∀ list ∈ lists, list.Pairwise (· ≤ ·) := by decide
  have words : ∀ list ∈ lists, ∀ value ∈ list, value < wordValues := by decide
  have shows := @ofLists_shows lists ascending words 1 (by decide)
  exact ⟨⟨ascending, words, by decide⟩, shows.1,
    shows.2.2.1 _ 0 1 2 [(3, 0)] [(wordValues - 1, 2)] (3, 1) rfl rfl rfl⟩

end NetworkAnalysis.Adjacency.Compressed
