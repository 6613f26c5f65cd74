import NetworkAnalysis.Adjacency.Row

/-!
# Visiting lists

What a visitor is shown is decided by the list behind it: a traversal that agrees with `visitList` on some
list for every visitor shows exactly that list.
-/

namespace NetworkAnalysis

variable {σ β : Type}

/-- A visitor of two lists, one behind the other, sees the second one only if it never declined. -/
theorem visitList_append (visitor : Visitor σ β) (front back : List β) (state : σ) :
    visitList visitor state (front ++ back) =
      match visitList visitor state front with
      | (state, true) => visitList visitor state back
      | (state, false) => (state, false) := by
  induction front generalizing state with
  | nil => rfl
  | cons entry front ih =>
    simp only [List.cons_append, visitList]
    rcases visitor state entry with ⟨state', more⟩
    cases more with
    | false => rfl
    | true => exact ih state'

/-- Two sides that are shown as lists are shown as one list, the outgoing side first. -/
theorem visitSides_eq_visitList {outgoing incoming : σ → σ × Bool} (visitor : Visitor σ β) {front back : List β}
    (out : ∀ state, outgoing state = visitList visitor state front)
    (into : ∀ state, incoming state = visitList visitor state back) (direction : Direction) (state : σ) :
    visitSides direction outgoing incoming state = visitList visitor state
      ((if direction.includesOutgoing then front else [])
        ++ (if direction.includesIncoming then back else [])) := by
  rw [visitList_append]
  simp only [visitSides, out, into]
  cases direction with
  | outgoing =>
    simp only [Direction.includesOutgoing, Direction.includesIncoming, if_true, Bool.and_false,
      Bool.false_eq_true, if_false, visitList]
    rcases visitList visitor state front with ⟨state', more⟩
    cases more <;> rfl
  | incoming =>
    simp [Direction.includesOutgoing, Direction.includesIncoming, visitList]
  | both =>
    simp only [Direction.includesOutgoing, Direction.includesIncoming, if_true, Bool.and_true]
    rcases visitList visitor state front with ⟨state', more⟩
    cases more <;> rfl

theorem visitList_collecting (list seen : List β) :
    visitList (fun seen entry => (entry :: seen, true)) seen list = (list.reverse ++ seen, true) := by
  induction list generalizing seen with
  | nil => rfl
  | cons entry list ih =>
    simp only [visitList]
    rw [ih, List.reverse_cons, List.append_assoc]
    rfl

/-- A traversal that shows a list has that list collected. -/
theorem collected_eq {visit : Visitor (List β) β → List β → List β × Bool} {list : List β}
    (shown : ∀ visitor state, visit visitor state = visitList visitor state list) :
    collected visit = list := by
  rw [collected, shown, visitList_collecting, List.append_nil, List.reverse_reverse]

end NetworkAnalysis
