/-!
# Priority queues

A `Heap` is a leftist tree: of the two subtrees of a node the left one has the longer right spine, and
both operations walk along right spines only. Which of two entries comes first is a parameter of the
operations. When that order is total, the order in which entries come out does not depend on the shape
of the tree.
-/

namespace NetworkAnalysis

/-- A tree of entries, each with the length of the right spine below it. -/
inductive Heap (β : Type) where
  /-- No entries. -/
  | empty
  /-- An entry that comes before all entries of two heaps. -/
  | node (rank : Nat) (entry : β) (left right : Heap β)

namespace Heap

variable {β : Type}

/-- The number of entries. -/
def size : Heap β → Nat
  | empty => 0
  | node _ _ left right => left.size + right.size + 1

/-- The length of the right spine. -/
def rank : Heap β → Nat
  | empty => 0
  | node rank .. => rank

/-- The entries, those of the left subtree first. -/
def toList : Heap β → List β
  | empty => []
  | node _ entry left right => entry :: (left.toList ++ right.toList)

/-- Puts an entry above two heaps, the one with the longer right spine to the left. -/
def join (entry : β) (a b : Heap β) : Heap β :=
  if b.rank ≤ a.rank then node (b.rank + 1) entry a b else node (a.rank + 1) entry b a

@[simp]
theorem size_join (entry : β) (a b : Heap β) : (join entry a b).size = a.size + b.size + 1 := by
  unfold join
  split <;> simp [size, Nat.add_comm]

/-- All entries of two heaps. -/
def merge (before : β → β → Bool) : Heap β → Heap β → Heap β
  | empty, b => b
  | a, empty => a
  | node r x left right, node s y left' right' =>
    if before y x then join y left' (merge before (node r x left right) right')
    else join x left (merge before right (node s y left' right'))
termination_by a b => a.size + b.size
decreasing_by
  all_goals simp only [size]
  all_goals omega

@[simp]
theorem size_merge (before : β → β → Bool) (a b : Heap β) :
    (merge before a b).size = a.size + b.size := by
  fun_induction merge before a b with
  | case1 => simp [size]
  | case2 => simp [size]
  | case3 r x left right s y left' right' h ih => simp only [size_join, ih, size]; omega
  | case4 r x left right s y left' right' h ih => simp only [size_join, ih, size]; omega

/-- The heap with one more entry. -/
def push (before : β → β → Bool) (h : Heap β) (entry : β) : Heap β :=
  merge before h (node 1 entry empty empty)

/-- The first entry and the heap without it. -/
def pop? (before : β → β → Bool) : Heap β → Option (β × Heap β)
  | empty => none
  | node _ entry left right => some (entry, merge before left right)

theorem size_of_pop? {before : β → β → Bool} {h rest : Heap β} {entry : β}
    (popped : h.pop? before = some (entry, rest)) : h.size = rest.size + 1 := by
  cases h with
  | empty => simp [pop?] at popped
  | node r x left right =>
    simp only [pop?, Option.some.injEq, Prod.mk.injEq] at popped
    simp [← popped.2, size]

end Heap

end NetworkAnalysis
