import Mathlib.Data.Fintype.Card

/-!
# The component search as a recursion

The search for strongly connected components as it stands in textbooks: a function visits a node and calls itself
for each neighbour that has not been discovered. What has been found is kept in functions and in a list, and a
component is cut off the stack in one piece. The recursion ends because every call discovers a node, which the
results carry with them.
-/

namespace NetworkAnalysis.Component

variable {n : Nat}

/-- What a recursive search has found: the numbers and low links of the discovered nodes, a stack of those whose
components are open, the last one in front, and the components of the others. -/
structure Descent (n : Nat) where
  index : Fin n → Option Nat
  lowlink : Fin n → Nat
  stack : List (Fin n)
  component : Fin n → Option Nat
  componentCount : Nat
  counter : Nat

namespace Descent

def start : Descent n where
  index _ := none
  lowlink _ := 0
  stack := []
  component _ := none
  componentCount := 0
  counter := 0

/-- Numbers a node and puts it on the stack. -/
def discover (s : Descent n) (v : Fin n) : Descent n :=
  { s with
    index := Function.update s.index v (some s.counter)
    lowlink := Function.update s.lowlink v s.counter
    stack := v :: s.stack
    counter := s.counter + 1 }

/-- Lowers the low link of a node to a number. -/
def lower (s : Descent n) (v : Fin n) (number : Nat) : Descent n :=
  { s with lowlink := Function.update s.lowlink v (min (s.lowlink v) number) }

/-- Makes a component of a node and all that stands above it, if its low link is its own number. -/
def close (s : Descent n) (v : Fin n) : Descent n :=
  if s.index v = some (s.lowlink v) then
    { s with
      stack := (s.stack.dropWhile (· ≠ v)).tail
      component := fun w =>
        if (v :: s.stack.takeWhile (· ≠ v)).contains w then some s.componentCount else s.component w
      componentCount := s.componentCount + 1 }
  else
    s

/-- The number of nodes that have not been discovered. -/
def undiscovered (s : Descent n) : Nat :=
  (Finset.univ.filter fun v => s.index v = none).card

theorem undiscovered_discover_lt {s : Descent n} {v : Fin n} (new : s.index v = none) :
    (s.discover v).undiscovered < s.undiscovered := by
  refine Finset.card_lt_card ((Finset.ssubset_iff_of_subset fun w member => ?_).2 ⟨v, ?_, ?_⟩)
  · simp only [discover, Finset.mem_filter_univ, Function.update_apply] at member ⊢
    split at member
    · cases member
    · exact member
  · simpa using new
  · rw [Finset.mem_filter_univ]
    simp [discover]

theorem undiscovered_close (s : Descent n) (v : Fin n) : (s.close v).undiscovered = s.undiscovered := by
  unfold close
  split <;> rfl

/-- What may have been found later: nothing that was discovered is given up. -/
abbrev Later (s : Descent n) : Type :=
  { t : Descent n // t.undiscovered ≤ s.undiscovered }

mutual

/-- Visits a node: discovers it, looks at its neighbours, and closes its component if it is the first node of one. -/
def visit (neighbours : Fin n → List (Fin n)) (s : Descent n) (v : Fin n) (new : s.index v = none) : s.Later :=
  let t := visitAll neighbours (s.discover v) v (neighbours v)
  ⟨t.1.close v, by
    rw [undiscovered_close]
    exact Nat.le_trans t.2 (Nat.le_of_lt (undiscovered_discover_lt new))⟩
termination_by (s.undiscovered, 0)
decreasing_by exact Prod.Lex.left _ _ (undiscovered_discover_lt new)

/-- Looks at neighbours of a node in order. One that is new is visited and hands its low link on; the number of one
that stands on the stack bounds the low link. -/
def visitAll (neighbours : Fin n → List (Fin n)) (s : Descent n) (v : Fin n) : List (Fin n) → s.Later
  | [] => ⟨s, Nat.le_refl _⟩
  | w :: rest =>
    if new : s.index w = none then
      let t := visit neighbours s w new
      let u := visitAll neighbours (t.1.lower v (t.1.lowlink w)) v rest
      ⟨u.1, Nat.le_trans u.2 t.2⟩
    else if s.stack.contains w then
      let u := visitAll neighbours (s.lower v ((s.index w).getD 0)) v rest
      ⟨u.1, u.2⟩
    else
      visitAll neighbours s v rest
termination_by list => (s.undiscovered, list.length + 1)
decreasing_by
  · exact Prod.Lex.right _ (Nat.succ_pos _)
  · exact Prod.Lex.right' _ t.2 (Nat.lt_succ_self _)
  · exact Prod.Lex.right _ (Nat.lt_succ_self _)
  · exact Prod.Lex.right _ (Nat.lt_succ_self _)

end

section Results

variable (neighbours : Fin n → List (Fin n)) {s : Descent n} {v w : Fin n} {rest : List (Fin n)}

theorem val_visit (new : s.index v = none) :
    (visit neighbours s v new).1 = (visitAll neighbours (s.discover v) v (neighbours v)).1.close v := by
  rw [visit]

theorem val_visitAll_nil : (visitAll neighbours s v []).1 = s := by
  rw [visitAll]

theorem val_visitAll_of_new (new : s.index w = none) :
    (visitAll neighbours s v (w :: rest)).1
      = let t := (visit neighbours s w new).1
        (visitAll neighbours (t.lower v (t.lowlink w)) v rest).1 := by
  rw [visitAll, dif_pos new]

theorem val_visitAll_of_mem_stack (old : s.index w ≠ none) (onStack : w ∈ s.stack) :
    (visitAll neighbours s v (w :: rest)).1
      = (visitAll neighbours (s.lower v ((s.index w).getD 0)) v rest).1 := by
  rw [visitAll, dif_neg old, if_pos (List.contains_iff_mem.2 onStack)]

theorem val_visitAll_of_notMem_stack (old : s.index w ≠ none) (offStack : w ∉ s.stack) :
    (visitAll neighbours s v (w :: rest)).1 = (visitAll neighbours s v rest).1 := by
  rw [visitAll, dif_neg old, if_neg (mt List.contains_iff_mem.1 offStack)]

end Results

/-- Visits a node, unless it has been discovered. -/
def visitRoot (neighbours : Fin n → List (Fin n)) (s : Descent n) (root : Fin n) : Descent n :=
  if new : s.index root = none then (s.visit neighbours root new).1 else s

/-- Visits all nodes in order, but those that have been discovered by then. -/
def run (neighbours : Fin n → List (Fin n)) : Descent n :=
  (List.finRange n).foldl (visitRoot neighbours) start

end Descent

end NetworkAnalysis.Component
