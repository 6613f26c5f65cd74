import Mathlib.Algebra.Order.Floor.Div
import NetworkAnalysis.Export
import NetworkAnalysis.Proofs.LoadOutcome

/-!
# What an export hands over

An export goes through the nodes in order. As long as its watch lets it go on and the writer takes what it is given,
it has handed over the values of the nodes so far, in order, and has asked once for every batch that was begun
(`writeNodes_of_taken`). It ends behind the last node, before the batch at whose beginning the watch says no, or at
the first value that the writer refuses.
-/

namespace NetworkAnalysis

/-- The first question that a watch answers with no; without one, it never does. -/
def Watch.FirstNo (watch : Watch) : Option Nat → Prop
  | none => ∀ poll, watch poll = true
  | some j => watch j = false ∧ ∀ poll < j, watch poll = true

theorem Watch.exists_firstNo (watch : Watch) : ∃ stop, watch.FirstNo stop := by
  by_cases no : ∃ poll, watch poll = false
  · refine ⟨some (Nat.find no), Nat.find_spec no, fun poll before => ?_⟩
    simpa using Nat.find_min no before
  · exact ⟨none, fun poll => by simpa using not_exists.1 no poll⟩

namespace Export

variable {α ω ε : Type}

/-! ## What is due -/

/-- What is exported of a node: its label and its value, if there is such a node and it has a value. -/
def property? (ids : IdMap) (name : String) (translate : Translator α) (node : Nat) : Option (Property α) :=
  (ids.label? node).bind fun label => (translate node).map fun value => { label, name, value }

/-- What is exported of the nodes below a bound, in order. -/
def due (ids : IdMap) (name : String) (translate : Translator α) (bound : Nat) : List (Property α) :=
  (List.range bound).filterMap (property? ids name translate)

/-- The end of the nodes that are exported under a watch with this first no. -/
def bound (ids : IdMap) (stop : Option Nat) : Nat :=
  stop.elim ids.size fun j => j * exportBatch

/-- The questions that a watch with this first no is asked about a number of batches. -/
def questions (batches : Nat) (stop : Option Nat) : Nat :=
  stop.elim batches fun j => min (j + 1) batches

variable {ids : IdMap} {name : String} {translate : Translator α} {write : Writer ω ε α} {watch : Watch}

theorem due_add_one (bound : Nat) :
    due ids name translate (bound + 1)
      = due ids name translate bound ++ (property? ids name translate bound).toList := by
  rw [due, List.range_succ, List.filterMap_append]
  rfl

theorem property?_of_lt {node : Nat} (inside : node < ids.size) :
    property? ids name translate node
      = (translate node).map fun value => { label := ids.label ⟨node, inside⟩, name, value } := by
  have labelled : ids.label? node = some (ids.label ⟨node, inside⟩) := Array.getElem?_eq_getElem inside
  rw [property?, labelled, Option.bind_some]

theorem property?_of_le {node : Nat} (beyond : ids.size ≤ node) : property? ids name translate node = none := by
  have unlabelled : ids.label? node = none := Array.getElem?_eq_none beyond
  rw [property?, unlabelled, Option.bind_none]

/-- Nothing is due of numbers that are no nodes. -/
theorem due_of_le {bound : Nat} (beyond : ids.size ≤ bound) :
    due ids name translate bound = due ids name translate ids.size := by
  induction bound, beyond using Nat.le_induction with
  | base => rfl
  | succ bound beyond ih => rw [due_add_one, property?_of_le beyond, ih, Option.toList_none, List.append_nil]

/-- What is due before one of the values is due below its node. -/
theorem exists_node_of_due {bound : Nat} {front rest : List (Property α)} {property : Property α}
    (parts : due ids name translate bound = front ++ property :: rest) :
    ∃ node < bound, property? ids name translate node = some property ∧ due ids name translate node = front := by
  induction bound generalizing rest with
  | zero => simp [due] at parts
  | succ bound ih =>
    rw [due_add_one] at parts
    have later : ∀ {rest}, due ids name translate bound = front ++ property :: rest →
        ∃ node < bound + 1, property? ids name translate node = some property
          ∧ due ids name translate node = front := by
      intro rest parts
      obtain ⟨node, below, known⟩ := ih parts
      exact ⟨node, Nat.lt_succ_of_lt below, known⟩
    cases last : property? ids name translate bound with
    | none =>
      rw [last, Option.toList_none, List.append_nil] at parts
      exact later parts
    | some other =>
      rw [last, Option.toList_some] at parts
      rcases rest.eq_nil_or_concat with rfl | ⟨rest, final, rfl⟩
      · obtain ⟨before, same⟩ := List.append_inj' parts rfl
        exact ⟨bound, Nat.lt_succ_self bound, last.trans (congrArg some (List.singleton_inj.1 same)), before⟩
      · rw [List.concat_eq_append, ← List.cons_append, ← List.append_assoc] at parts
        exact later (List.append_inj_left' parts rfl)

/-! ## The course of an export -/

/-- The questions before a node: one for every batch that begins there. -/
theorem asksBefore_add_one (node : Nat) :
    (node + 1) ⌈/⌉ exportBatch = if asksAt node then node ⌈/⌉ exportBatch + 1 else node ⌈/⌉ exportBatch := by
  simp only [Nat.ceilDiv_eq_add_pred_div, asksAt, exportBatch, beq_iff_eq]
  split <;> omega

/-- A batch is begun if its first number is a node. -/
theorem lt_batches_iff {size j : Nat} : j < size ⌈/⌉ exportBatch ↔ j * exportBatch < size := by
  have some_nodes : 0 < exportBatch := by decide
  rw [← Nat.not_le, ← Nat.not_le, ceilDiv_le_iff_le_mul some_nodes, Nat.mul_comm]

theorem drop_finRange {n k : Nat} (inside : k < n) :
    (List.finRange n).drop k = ⟨k, inside⟩ :: (List.finRange n).drop (k + 1) := by
  rw [List.drop_eq_getElem_cons (by simpa using inside), List.getElem_finRange]
  rfl

/-- The watch does not say no at a node below the bound. -/
theorem goes_on_of_lt_bound {stop : Option Nat} (stops : watch.FirstNo stop) {node : Nat}
    (early : node < bound ids stop) : (asksAt node && !watch (node ⌈/⌉ exportBatch)) = false := by
  cases asks : asksAt node with
  | false => rfl
  | true =>
    have goes : watch (node ⌈/⌉ exportBatch) = true := by
      cases stop with
      | none => exact stops _
      | some j =>
        refine stops.2 _ ?_
        simp only [bound, Option.elim_some, asksAt, exportBatch, beq_iff_eq, Nat.ceilDiv_eq_add_pred_div]
          at early asks ⊢
        omega
    rw [goes]
    rfl

section Course

variable {stop : Option Nat} (stops : watch.FirstNo stop)

include stops

/-- A node whose value, if it has one, is taken. -/
theorem writeNodes_step {node : Nat} (inside : node < ids.size) (early : node < bound ids stop) {writer next : ω}
    (taken : (property? ids name translate node).toList.foldlM write writer = .ok next) (written : Nat) :
    writeNodes ids name translate write watch ((List.finRange ids.size).drop node) writer written
        (node ⌈/⌉ exportBatch)
      = writeNodes ids name translate write watch ((List.finRange ids.size).drop (node + 1)) next
        (written + (property? ids name translate node).toList.length) ((node + 1) ⌈/⌉ exportBatch) := by
  rw [property?_of_lt inside] at taken ⊢
  rw [drop_finRange inside, writeNodes, goes_on_of_lt_bound stops early, asksBefore_add_one]
  cases found : translate node with
  | none =>
    rw [found] at taken
    obtain rfl := Except.ok.inj taken
    rfl
  | some value =>
    have accepted : write writer { label := ids.label ⟨node, inside⟩, name, value } = .ok next := by
      simpa [found] using taken
    simp only [Bool.false_eq_true, if_false, accepted]
    rfl

/-- An export comes to any node below the bound, if the writer takes all that is due before. -/
theorem writeNodes_of_taken {node : Nat} (within : node ≤ ids.size) (early : node ≤ bound ids stop) {writer last : ω}
    (taken : (due ids name translate node).foldlM write writer = .ok last) :
    Export.write ids name translate write watch writer
      = writeNodes ids name translate write watch ((List.finRange ids.size).drop node) last
        (due ids name translate node).length (node ⌈/⌉ exportBatch) := by
  induction node generalizing last with
  | zero =>
    obtain rfl := Except.ok.inj taken
    rfl
  | succ node ih =>
    rw [due_add_one, List.foldlM_append] at taken
    cases before : (due ids name translate node).foldlM write writer with
    | error reason =>
      rw [before] at taken
      cases taken
    | ok between =>
      rw [before] at taken
      rw [ih (Nat.le_of_succ_le within) (Nat.le_of_succ_le early) before, due_add_one, List.length_append]
      exact writeNodes_step stops within early taken _

/-- An export whose values are all taken comes to the end, or to the question that is answered with no. -/
theorem write_of_taken {writer last : ω}
    (taken : (due ids name translate (bound ids stop)).foldlM write writer = .ok last) :
    Export.write ids name translate write watch writer =
      { writer := last
        written := (due ids name translate (bound ids stop)).length
        polls := questions (ids.size ⌈/⌉ exportBatch) stop
        ending := if ∃ j ∈ stop, j < ids.size ⌈/⌉ exportBatch then .stopped else .finished } := by
  rcases Nat.lt_or_ge (bound ids stop) ids.size with inside | beyond
  · -- only a no ends the nodes early, and it is said at the first node of its batch
    obtain ⟨j, rfl⟩ : ∃ j, stop = some j := by
      cases stop with
      | none => exact absurd inside (Nat.lt_irrefl _)
      | some j => exact ⟨j, rfl⟩
    have asks : asksAt (j * exportBatch) = true := by simp [asksAt]
    have place : (j * exportBatch) ⌈/⌉ exportBatch = j := by
      simp only [Nat.ceilDiv_eq_add_pred_div, exportBatch]
      omega
    have early : j < ids.size ⌈/⌉ exportBatch := lt_batches_iff.2 inside
    have stopped : ∃ i ∈ some j, i < ids.size ⌈/⌉ exportBatch := ⟨j, rfl, early⟩
    have no : (asksAt (bound ids (some j)) && !watch (bound ids (some j) ⌈/⌉ exportBatch)) = true := by
      rw [bound, Option.elim_some, asks, place, stops.1]
      rfl
    rw [writeNodes_of_taken stops (Nat.le_of_lt inside) (Nat.le_refl _) taken, drop_finRange inside, writeNodes, no,
      if_pos stopped, questions, Option.elim_some, Nat.min_eq_left early]
    simp [bound, place]
  · have finished : ¬ ∃ j ∈ stop, j < ids.size ⌈/⌉ exportBatch := by
      rintro ⟨j, rfl, early⟩
      exact Nat.not_lt.2 beyond (lt_batches_iff.1 early)
    have all : questions (ids.size ⌈/⌉ exportBatch) stop = ids.size ⌈/⌉ exportBatch := by
      cases stop with
      | none => rfl
      | some j =>
        have late : ¬ j < ids.size ⌈/⌉ exportBatch := fun early => finished ⟨j, rfl, early⟩
        exact Nat.min_eq_right (by omega)
    rw [due_of_le beyond] at taken ⊢
    rw [writeNodes_of_taken stops (Nat.le_refl _) beyond taken, if_neg finished, all]
    have exhausted : (List.finRange ids.size).drop ids.size = [] := by simp
    rw [exhausted]
    rfl

/-- An export ends with the first value that the writer refuses. -/
theorem write_of_refused {node : Nat} (early : node < bound ids stop) {property : Property α}
    (given : property? ids name translate node = some property) {writer last : ω} {reason : ε}
    (taken : (due ids name translate node).foldlM write writer = .ok last)
    (refused : write last property = .error reason) :
    Export.write ids name translate write watch writer =
      { writer := last
        written := (due ids name translate node).length
        polls := (node + 1) ⌈/⌉ exportBatch
        ending := .refused reason } := by
  rcases Nat.lt_or_ge node ids.size with inside | beyond
  · rw [property?_of_lt inside] at given
    obtain ⟨value, found, rfl⟩ := Option.map_eq_some_iff.1 given
    rw [writeNodes_of_taken stops (Nat.le_of_lt inside) (Nat.le_of_lt early) taken, drop_finRange inside, writeNodes,
      goes_on_of_lt_bound stops early, asksBefore_add_one, found]
    simp only [Bool.false_eq_true, if_false, refused]
  · rw [property?_of_le beyond] at given
    cases given

end Course

/-! ## What a writer is offered -/

/-- A writer that takes and refuses what another one does, and notes all that it is offered. -/
def noting (write : Writer ω ε α) : Writer (ω × List (Property α)) (ε × List (Property α)) α :=
  fun (writer, offers) property =>
    match write writer property with
    | .ok writer => .ok (writer, offers ++ [property])
    | .error reason => .error (reason, offers ++ [property])

/-- What the writer was offered by the end of an export. -/
def offers (e : Exported (ω × List (Property α)) (ε × List (Property α))) : List (Property α) :=
  match e.ending with
  | .refused (_, offers) => offers
  | _ => e.writer.2

theorem foldlM_noting (properties : List (Property α)) {writer last : ω} (noted : List (Property α))
    (taken : properties.foldlM write writer = .ok last) :
    properties.foldlM (noting write) (writer, noted) = .ok (last, noted ++ properties) := by
  induction properties generalizing writer noted with
  | nil =>
    obtain rfl := Except.ok.inj taken
    rw [List.append_nil]
    rfl
  | cons property rest ih =>
    rw [List.foldlM_cons] at taken ⊢
    cases answer : write writer property with
    | error reason =>
      rw [answer] at taken
      cases taken
    | ok next =>
      rw [answer] at taken
      have later := ih (noted ++ [property]) taken
      rw [List.append_assoc, List.singleton_append] at later
      simp only [noting, answer]
      exact later

/-- A writer that does not take all of a list takes what stands before one of the values and refuses that one. -/
theorem exists_refused {properties : List (Property α)} {writer : ω} {reason : ε}
    (failed : properties.foldlM write writer = .error reason) :
    ∃ front property rest last, properties = front ++ property :: rest ∧ front.foldlM write writer = .ok last
      ∧ write last property = .error reason := by
  induction properties generalizing writer with
  | nil => cases failed
  | cons property rest ih =>
    rw [List.foldlM_cons] at failed
    cases answer : write writer property with
    | error other =>
      rw [answer] at failed
      obtain rfl := Except.error.inj failed
      exact ⟨[], property, rest, writer, rfl, rfl, answer⟩
    | ok next =>
      rw [answer] at failed
      obtain ⟨front, refused, behind, last, rfl, taken, no⟩ := ih failed
      refine ⟨property :: front, refused, behind, last, rfl, ?_, no⟩
      rw [List.foldlM_cons, answer]
      exact taken

/-- An export offers its writer the values of the nodes below the bound in order, one for every node that has one. It
stops there if the watch says no. A value that is refused is the last one that is offered, and the writer has taken
those of all nodes before. -/
theorem write_offers_prefix (ids : IdMap) (name : String) (translate : Translator α) (write : Writer ω ε α)
    {watch : Watch} {stop : Option Nat} (stops : watch.FirstNo stop) (writer : ω) :
    let e := Export.write ids name translate write watch writer
    let offered := offers (Export.write ids name translate (noting write) watch (writer, []))
    let all := due ids name translate (bound ids stop)
    let batches := ids.size ⌈/⌉ exportBatch
    match all.foldlM write writer with
    | .ok last => offered = all ∧ e.writer = last ∧ e.written = offered.length ∧ e.polls = questions batches stop
      ∧ e.ending = if ∃ j ∈ stop, j < batches then .stopped else .finished
    | .error reason => e.ending = .refused reason ∧ ∃ node < bound ids stop, ∃ property,
      property? ids name translate node = some property ∧ offered = due ids name translate node ++ [property]
        ∧ (due ids name translate node).foldlM write writer = .ok e.writer
        ∧ write e.writer property = .error reason := by
  intro e offered all batches
  cases course : all.foldlM write writer with
  | ok last =>
    have plain : e = _ := write_of_taken stops course
    have noted := write_of_taken stops (foldlM_noting all [] course)
    have same : offered = all := by
      show offers (Export.write ids name translate (noting write) watch (writer, [])) = all
      rw [noted, offers]
      dsimp only
      split
      · next reason offers ending => split at ending <;> cases ending
      · rfl
    rw [same, plain]
    exact ⟨rfl, rfl, rfl, rfl, rfl⟩
  | error reason =>
    obtain ⟨front, property, rest, last, parts, taken, refused⟩ := exists_refused course
    obtain ⟨node, early, given, rfl⟩ := exists_node_of_due parts
    have plain : e = _ := write_of_refused stops early given taken refused
    have refused' : noting write (last, due ids name translate node) property
        = .error (reason, due ids name translate node ++ [property]) := by
      rw [noting, refused]
    have noted := write_of_refused stops early given (foldlM_noting _ [] taken) refused'
    have same : offered = due ids name translate node ++ [property] := by
      show offers (Export.write ids name translate (noting write) watch (writer, [])) = _
      rw [noted]
      rfl
    rw [same, plain]
    exact ⟨rfl, node, early, property, given, rfl, taken, refused⟩

/-- Every node has a value that is due, if the translator has one for every node. -/
theorem length_due (translate : Nat → PropertyValue α) {bound : Nat} (within : bound ≤ ids.size) :
    (due ids name (fun node => some (translate node)) bound).length = bound := by
  induction bound with
  | zero => rfl
  | succ bound ih =>
    rw [due_add_one, List.length_append, ih (Nat.le_of_succ_le within), property?_of_lt within]
    rfl

/-- A writer that takes everything and counts. -/
def counting : Writer Nat ε α :=
  fun taken _ => .ok (taken + 1)

theorem foldlM_counting (properties : List (Property α)) (taken : Nat) :
    properties.foldlM (counting : Writer Nat ε α) taken = .ok (taken + properties.length) := by
  induction properties generalizing taken with
  | nil => rfl
  | cons property rest ih =>
    rw [List.foldlM_cons, List.length_cons, Nat.add_comm rest.length, ← Nat.add_assoc]
    exact ih (taken + 1)

/-- Three batches are begun by 20001 nodes. A watch that says no to the second question lets the first one through. -/
theorem write_offers_prefix_batches : ∃ ids : IdMap, ids.size = 20001 ∧ (Watch.budget 1).FirstNo (some 1)
    ∧ let e : Exported Nat String :=
        Export.write ids "rank" (fun node => some (.int node)) (counting : Writer Nat String Rat) (.budget 1) 0
      e.writer = 10000 ∧ e.written = 10000 ∧ e.polls = 2 ∧ e.ending = .stopped := by
  have distinct : (List.range 20001).Nodup := List.nodup_range
  obtain ⟨ids, -, listed⟩ := IdMap.exists_ofList distinct
  have size : ids.size = 20001 := by
    have length := congrArg List.length listed
    rwa [List.length_range, Array.length_toList] at length
  have stops : (Watch.budget 1).FirstNo (some 1) :=
    ⟨rfl, fun poll before => decide_eq_true before⟩
  refine ⟨ids, size, stops, ?_⟩
  -- with the bound in sight, ten thousand nodes would be gone through here
  generalize place : some 1 = stop at stops
  have course := write_offers_prefix ids "rank" (fun node => some (.int node)) (counting : Writer Nat String Rat)
    stops 0
  have all : (due ids "rank" (fun node => some (PropertyValue.int node : PropertyValue Rat))
      (bound ids stop)).length = 10000 := by
    have ten : bound ids stop = 10000 := place ▸ rfl
    rw [ten]
    exact length_due _ (by omega)
  have three : ids.size ⌈/⌉ exportBatch = 3 := by
    rw [size]
    rfl
  simp only [foldlM_counting, Nat.zero_add, three] at course
  obtain ⟨offered, writer, written, polls, ending⟩ := course
  rw [offered, all] at written
  subst place
  exact ⟨writer.trans all, written, polls, ending⟩

end Export

end NetworkAnalysis
