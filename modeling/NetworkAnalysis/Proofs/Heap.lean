import NetworkAnalysis.Heap

/-!
# The order of entries in a heap

Entries come out of a heap smallest first, in every preorder that the comparison respects. Nothing is lost
and nothing is made up on the way: what comes out and what stays are a permutation of what was there.
-/

namespace NetworkAnalysis.Heap

variable {β : Type} {before : β → β → Bool}

/-! ## Contents -/

theorem perm_join (entry : β) (a b : Heap β) :
    (join entry a b).toList.Perm (entry :: (a.toList ++ b.toList)) := by
  unfold join
  split
  · exact .rfl
  · exact .cons _ List.perm_append_comm

theorem perm_merge (before : β → β → Bool) (a b : Heap β) :
    (merge before a b).toList.Perm (a.toList ++ b.toList) := by
  fun_induction merge before a b with
  | case1 b => exact .rfl
  | case2 a => simp [toList]
  | case3 r x left right s y left' right' first ih =>
    calc (join y left' (merge before (node r x left right) right')).toList
      List.Perm _ (y :: (left'.toList ++ ((node r x left right).toList ++ right'.toList))) :=
        (perm_join _ _ _).trans (.cons _ (ih.append_left _))
      List.Perm _ (y :: ((node r x left right).toList ++ (left'.toList ++ right'.toList))) := by
        refine .cons _ ?_
        rw [← List.append_assoc, ← List.append_assoc]
        exact List.perm_append_comm.append_right _
      List.Perm _ ((node r x left right).toList ++ (node s y left' right').toList) :=
        List.perm_middle.symm
  | case4 r x left right s y left' right' first ih =>
    calc (join x left (merge before right (node s y left' right'))).toList
      List.Perm _ (x :: (left.toList ++ (right.toList ++ (node s y left' right').toList))) :=
        (perm_join _ _ _).trans (.cons _ (ih.append_left _))
      _ = (node r x left right).toList ++ (node s y left' right').toList := by
        rw [← List.append_assoc]
        rfl

theorem perm_push (h : Heap β) (entry : β) :
    (h.push before entry).toList.Perm (entry :: h.toList) :=
  (perm_merge _ _ _).trans (List.perm_append_singleton entry h.toList)

theorem mem_push {h : Heap β} {entry other : β} :
    other ∈ (h.push before entry).toList ↔ other = entry ∨ other ∈ h.toList := by
  rw [(perm_push h entry).mem_iff, List.mem_cons]

theorem perm_of_pop? {h rest : Heap β} {entry : β} (popped : h.pop? before = some (entry, rest)) :
    h.toList.Perm (entry :: rest.toList) := by
  cases h with
  | empty => cases popped
  | node r x left right =>
    obtain ⟨rfl, rfl⟩ := Prod.mk.inj (Option.some.inj popped)
    exact .cons _ (perm_merge _ _ _).symm

theorem toList_of_pop?_eq_none {h : Heap β} (popped : h.pop? before = none) : h.toList = [] := by
  cases h with
  | empty => rfl
  | node r x left right => cases popped

/-! ## Order -/

/-- Every entry is at most what lies below it. -/
def Ordered (le : β → β → Prop) : Heap β → Prop
  | empty => True
  | node _ entry left right =>
    (∀ other ∈ left.toList ++ right.toList, le entry other) ∧ left.Ordered le ∧ right.Ordered le

/-- A comparison respects a preorder. -/
structure Respects (before : β → β → Bool) (le : β → β → Prop) : Prop where
  trans : ∀ {a b c : β}, le a b → le b c → le a c
  le_of_before : ∀ {a b : β}, before a b = true → le a b
  le_of_not_before : ∀ {a b : β}, before a b = false → le b a

variable {le : β → β → Prop}

theorem ordered_join {entry : β} {a b : Heap β} (above : ∀ other ∈ a.toList ++ b.toList, le entry other)
    (ha : a.Ordered le) (hb : b.Ordered le) : (join entry a b).Ordered le := by
  unfold join
  split
  · exact ⟨above, ha, hb⟩
  · refine ⟨fun other member => above other ?_, hb, ha⟩
    exact List.perm_append_comm.mem_iff.1 member

theorem ordered_merge (respects : Respects before le) {a b : Heap β} (ha : a.Ordered le)
    (hb : b.Ordered le) : (merge before a b).Ordered le := by
  fun_induction merge before a b with
  | case1 b => exact hb
  | case2 a => exact ha
  | case3 r x left right s y left' right' first ih =>
    obtain ⟨above, hleft, hright⟩ := hb
    refine ordered_join (fun other member => ?_) hleft (ih ha hright)
    rw [List.mem_append, (perm_merge _ _ _).mem_iff, List.mem_append] at member
    rcases member with inLeft | inOther | inRight
    · exact above other (List.mem_append_left _ inLeft)
    · have yx := respects.le_of_before first
      rcases List.mem_cons.1 inOther with rfl | below
      · exact yx
      · exact respects.trans yx (ha.1 other below)
    · exact above other (List.mem_append_right _ inRight)
  | case4 r x left right s y left' right' first ih =>
    obtain ⟨above, hleft, hright⟩ := ha
    refine ordered_join (fun other member => ?_) hleft (ih hright hb)
    rw [List.mem_append, (perm_merge _ _ _).mem_iff, List.mem_append] at member
    rcases member with inLeft | inRight | inOther
    · exact above other (List.mem_append_left _ inLeft)
    · exact above other (List.mem_append_right _ inRight)
    · have xy := respects.le_of_not_before (Bool.eq_false_iff.2 first)
      rcases List.mem_cons.1 inOther with rfl | below
      · exact xy
      · exact respects.trans xy (hb.1 other below)

theorem ordered_push (respects : Respects before le) {h : Heap β} (ordered : h.Ordered le) (entry : β) :
    (h.push before entry).Ordered le := by
  refine ordered_merge respects ordered ⟨?_, trivial, trivial⟩
  intro other member
  cases member

theorem ordered_of_pop? (respects : Respects before le) {h rest : Heap β} {entry : β}
    (ordered : h.Ordered le) (popped : h.pop? before = some (entry, rest)) : rest.Ordered le := by
  cases h with
  | empty => cases popped
  | node r x left right =>
    obtain ⟨_, rfl⟩ := Prod.mk.inj (Option.some.inj popped)
    exact ordered_merge respects ordered.2.1 ordered.2.2

/-- What comes out is at most everything that stays. -/
theorem le_of_pop? {h rest : Heap β} {entry : β} (ordered : h.Ordered le)
    (popped : h.pop? before = some (entry, rest)) {other : β} (stays : other ∈ rest.toList) :
    le entry other := by
  cases h with
  | empty => cases popped
  | node r x left right =>
    obtain ⟨rfl, rfl⟩ := Prod.mk.inj (Option.some.inj popped)
    exact ordered.1 other ((perm_merge _ _ _).mem_iff.1 stays)

end NetworkAnalysis.Heap
