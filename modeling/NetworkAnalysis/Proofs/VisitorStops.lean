import NetworkAnalysis.Proofs.LoadSuccess

/-!
# Where a visitor stops

A visitor that declines is shown nothing more. What it has seen by then is the shortest beginning of a list that ends
with an entry where it declines, or the whole list if there is none (`Visitor.Sees`): there is one such beginning,
whatever state the visitor keeps. On a loaded graph the list is that of the links of the source, outgoing ones first,
and what the visitor sees of it is the same in either storage and through every handle.
-/

namespace NetworkAnalysis

namespace Visitor

variable {σ β : Type} {visitor : Visitor σ β} {state : σ} {list seen : List β}

/-- The state of a visitor that was shown some entries. -/
def after (visitor : Visitor σ β) (state : σ) (seen : List β) : σ :=
  seen.foldl (fun state entry => (visitor state entry).1) state

/-- The visitor declines at an entry that it is shown behind some others. -/
def Declines (visitor : Visitor σ β) (state : σ) (front : List β) (entry : β) : Prop :=
  (visitor (visitor.after state front) entry).2 = false

/-- The visitor together with a list of the entries that it was shown. -/
def noting (visitor : Visitor σ β) : Visitor (σ × List β) β := fun (state, seen) entry =>
  let (state, more) := visitor state entry
  ((state, seen ++ [entry]), more)

/-- What a visitor sees of a list: a beginning, in which it declines at the last entry only, and the whole list
unless it declines there. -/
structure Sees (visitor : Visitor σ β) (state : σ) (list seen : List β) : Prop where
  begins : seen <+: list
  last : ∀ front entry, front ++ [entry] <+: seen → visitor.Declines state front entry → front ++ [entry] = seen
  ends : seen = list ∨ ∃ front entry, seen = front ++ [entry] ∧ visitor.Declines state front entry

namespace Sees

theorem nil : visitor.Sees state [] [] := by
  refine ⟨List.prefix_rfl, fun front entry begins _ => ?_, .inl rfl⟩
  exact List.prefix_nil.1 begins

/-- A visitor that declines at the first entry sees nothing else. -/
theorem single {entry : β} (declines : visitor.Declines state [] entry) :
    visitor.Sees state (entry :: list) [entry] := by
  refine ⟨List.prefix_append [entry] list, fun front other begins _ => ?_, .inr ⟨[], entry, rfl, declines⟩⟩
  refine begins.eq_of_length (Nat.le_antisymm begins.length_le ?_)
  simp

/-- A visitor that goes on after the first entry sees what it sees of the others in its new state. -/
theorem cons {entry : β} (more : ¬ visitor.Declines state [] entry)
    (h : visitor.Sees (visitor state entry).1 list seen) : visitor.Sees state (entry :: list) (entry :: seen) := by
  constructor
  case begins => exact List.cons_prefix_cons.2 ⟨rfl, h.begins⟩
  case last =>
    intro front other begins declines
    cases front with
    | nil =>
      obtain ⟨rfl, -⟩ := List.cons_prefix_cons.1 begins
      exact absurd declines more
    | cons first front =>
      obtain ⟨rfl, behind⟩ := List.cons_prefix_cons.1 begins
      exact congrArg _ (h.last front other behind declines)
  case ends =>
    rcases h.ends with rfl | ⟨front, other, rfl, declines⟩
    · exact .inl rfl
    · exact .inr ⟨entry :: front, other, rfl, declines⟩

/-- Nothing is seen behind an entry where the visitor declines. -/
theorem prefix_of_declines (h : visitor.Sees state list seen) {front : List β} {entry : β}
    (inside : front ++ [entry] <+: list) (declines : visitor.Declines state front entry) :
    seen <+: front ++ [entry] := by
  rcases List.prefix_or_prefix_of_prefix h.begins inside with shorter | longer
  · exact shorter
  · rw [h.last front entry longer declines]

theorem unique {seen' : List β} (h : visitor.Sees state list seen) (h' : visitor.Sees state list seen') :
    seen = seen' := by
  have within : ∀ {seen seen' : List β}, visitor.Sees state list seen → visitor.Sees state list seen' →
      seen' <+: seen := by
    intro seen seen' h h'
    rcases h.ends with rfl | ⟨front, entry, rfl, declines⟩
    · exact h'.begins
    · exact h'.prefix_of_declines h.begins declines
  have forth := within h h'
  have back := within h' h
  exact back.eq_of_length (Nat.le_antisymm back.length_le forth.length_le)

end Sees

/-- A visitor of a list notes what it sees of it, and is left in the state that this brings about. -/
theorem exists_sees (visitor : Visitor σ β) (list : List β) (state : σ) (noted : List β) :
    ∃ seen, visitor.Sees state list seen ∧ (visitList visitor state list).1 = visitor.after state seen
      ∧ (visitList visitor.noting (state, noted) list).1 = (visitor.after state seen, noted ++ seen) := by
  induction list generalizing state noted with
  | nil => exact ⟨[], .nil, rfl, by rw [List.append_nil]; rfl⟩
  | cons entry list ih =>
    rcases answer : visitor state entry with ⟨state', more⟩
    cases more with
    | false =>
      have declines : visitor.Declines state [] entry := congrArg Prod.snd answer
      refine ⟨[entry], .single declines, ?_, ?_⟩
      · simp [visitList, after, answer]
      · simp [visitList, noting, after, answer]
    | true =>
      have goesOn : ¬ visitor.Declines state [] entry := by
        simp [Declines, after, answer]
      obtain ⟨seen, sees, left, notes⟩ := ih state' (noted ++ [entry])
      have afterwards : visitor.after state (entry :: seen) = visitor.after state' seen := by
        simp only [after, List.foldl_cons, answer]
      refine ⟨entry :: seen, .cons goesOn ?_, ?_, ?_⟩
      · rwa [answer]
      · rw [afterwards, visitList, answer]
        exact left
      · rw [List.append_assoc, List.singleton_append] at notes
        rw [afterwards, visitList, noting, answer]
        exact notes

example : (visitList (noting fun sum entry => (sum + entry, sum + entry < 5)) (0, []) [1, 3, 2, 7]).1
    = (6, [1, 3, 2]) := by decide

end Visitor

namespace Graph

variable {α σ : Type}

/-- A graph shows its relationships as its storage does. -/
theorem visit_eq_stored (g : Graph α) (node : Fin g.size) (direction : Direction)
    (visitor : Visitor σ (Relationship g.size)) (state : σ) :
    g.visit node direction visitor state =
      match g.adjacency with
      | .flat rows => rows.visit node direction visitor state
      | .packed rows => rows.visit node direction visitor state := by
  obtain ⟨ids, adjacency, weights⟩ := g
  cases adjacency <;> rfl

theorem visit_handle (g : Graph α) (node : Fin g.size) (direction : Direction)
    (visitor : Visitor σ (Relationship g.size)) (state : σ) :
    g.handle.visit node direction visitor state = g.visit node direction visitor state := by
  obtain ⟨ids, adjacency, weights⟩ := g
  cases adjacency <;> rfl

end Graph

namespace Loading

open Adjacency

variable {α σ : Type} [Scalar α] {storage : Storage} {settings : LoadSettings α} {source : Source α} {g : Graph α}

/-- A visitor of a node of a loaded graph sees the links of the source up to the first one where it declines, outgoing
ones first. None that enters the node is seen once it has declined at one that leaves it. The storage itself and a
handle for another worker show it the same. -/
theorem visit_sees (loaded : loadInto storage settings source = .ok g) (node : Fin g.size) (direction : Direction)
    (visitor : Visitor σ (Relationship g.size)) (state : σ) :
    let rows := targetsOf storage source g.ids
    let list := (if direction.includesOutgoing then leaving rows node else [])
      ++ (if direction.includesIncoming then arriving rows node else [])
    let visit := g.visit node direction visitor.noting (state, [])
    (∀ seen, visitor.Sees state list seen ↔ seen = visit.1.2)
      ∧ visit.1.1 = visitor.after state visit.1.2
      ∧ (g.visit node direction visitor state).1 = visit.1.1
      ∧ (∀ front relationship, direction.includesOutgoing → front ++ [relationship] <+: leaving rows node →
        visitor.Declines state front relationship → visit.1.2 <+: front ++ [relationship])
      ∧ (match g.adjacency with
        | .flat rows => rows.visit node direction visitor.noting (state, [])
        | .packed rows => rows.visit node direction visitor.noting (state, [])) = visit
      ∧ g.handle.visit node direction visitor.noting (state, []) = visit := by
  intro rows list visit
  have shows := (stored_of_loadInto loaded).shows
  obtain ⟨seen, sees, left, notes⟩ := visitor.exists_sees list state []
  have shown : visit.1 = (visitor.after state seen, seen) :=
    (congrArg Prod.fst (shows.visit_eq_visitList node direction visitor.noting (state, []))).trans notes
  rw [shown]
  refine ⟨fun other => ?_, rfl, ?_, ?_, ?_, ?_⟩
  · constructor
    · exact fun sees' => sees'.unique sees
    · rintro rfl
      exact sees
  · rw [shows.visit_eq_visitList]
    exact left
  · intro front relationship outgoing inside declines
    refine sees.prefix_of_declines (inside.trans ?_) declines
    show leaving rows node <+: (if direction.includesOutgoing then leaving rows node else []) ++ _
    rw [if_pos outgoing]
    exact List.prefix_append _ _
  · exact (g.visit_eq_stored node direction visitor.noting (state, [])).symm
  · exact g.visit_handle node direction visitor.noting (state, [])

/-- Three links leave the label 10, and one enters it. Who declines at the second one has seen two of them. -/
theorem visit_sees_junctions : ∃ (g : Graph Rat) (node : Fin g.size) (first second third : Relationship g.size),
    loadInto .huge fiveByDefault junctions = .ok g ∧ g.ids.label node = 10
      ∧ leaving (targetsOf .huge junctions g.ids) node = [first, second, third]
      ∧ (g.visit node .both (Visitor.noting fun count _ => (count + 1, count == 0)) (0, [])).1
        = (2, [first, second]) := by
  obtain ⟨g, loaded, labels⟩ := exists_load_junctions .huge
  have size : g.size = 4 := congrArg List.length labels
  let node : Fin g.size := ⟨0, by omega⟩
  have label : g.ids.label node = 10 := by
    have found : g.ids.labels[node.val]? = some (g.ids.label node) := Array.getElem?_eq_getElem node.isLt
    rw [← Array.getElem?_toList, labels] at found
    exact (Option.some.inj found).symm
  have count : (leaving (targetsOf .huge junctions g.ids) node).length = 3 := by
    have all : g.ids.labels.toList = junctions.nodes := labels
    have kept := congrArg List.length (map_links all node)
    rw [List.length_map, label] at kept
    rw [length_leaving, targetsOf, Table.getElem_map, getElem_rowsOf, List.length_map, (perm_arrange _ _).length_eq,
      kept]
    decide
  obtain ⟨first, second, third, listed⟩ := List.length_eq_three.1 count
  refine ⟨g, node, first, second, third, loaded, label, listed, ?_⟩
  obtain ⟨sees, state, -⟩ := visit_sees loaded node .both (fun (count : Nat) _ => (count + 1, count == 0)) 0
  have seen := (sees [first, second]).1 (by
    rw [listed]
    exact .cons (by simp [Visitor.Declines, Visitor.after]) (.single (by simp [Visitor.Declines, Visitor.after])))
  rw [← seen] at state
  exact Prod.ext state seen.symm

end Loading

end NetworkAnalysis
