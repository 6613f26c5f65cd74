/-!
# Queues

Entries leave a queue in the order in which they entered it, but an entry can also be put in front of the
others. The front of the queue is kept in order and its back in reverse order, so that all operations take
constant time on average.
-/

namespace NetworkAnalysis

/-- A queue, as a front in order and a back in reverse order. -/
structure Queue (β : Type) where
  /-- The entries that leave first. -/
  front : List β := []
  /-- The entries that leave last, the last one in front. -/
  back : List β := []

namespace Queue

variable {β : Type}

/-- The number of entries. -/
def size (q : Queue β) : Nat :=
  q.front.length + q.back.length

/-- The entries in the order in which they leave. -/
def toList (q : Queue β) : List β :=
  q.front ++ q.back.reverse

/-- The queue with one more entry at its end. -/
def push (q : Queue β) (entry : β) : Queue β :=
  { q with back := entry :: q.back }

/-- The queue with one more entry in front of the others. -/
def pushFront (q : Queue β) (entry : β) : Queue β :=
  { q with front := entry :: q.front }

/-- The first entry and the queue without it. -/
def pop? (q : Queue β) : Option (β × Queue β) :=
  match q.front with
  | entry :: front => some (entry, { q with front })
  | [] =>
    match q.back.reverse with
    | [] => none
    | entry :: front => some (entry, { front, back := [] })

/-- The queue with its first entry moved to its end. -/
def rotate (q : Queue β) : Queue β :=
  match q.pop? with
  | none => q
  | some (entry, rest) => rest.push entry

@[simp]
theorem size_push (q : Queue β) (entry : β) : (q.push entry).size = q.size + 1 := by
  simp [push, size, Nat.add_assoc]

theorem size_of_pop? {q rest : Queue β} {entry : β} (popped : q.pop? = some (entry, rest)) :
    q.size = rest.size + 1 := by
  unfold pop? at popped
  split at popped
  · next front h =>
    simp only [Option.some.injEq, Prod.mk.injEq] at popped
    simp [size, h, ← popped.2]
    omega
  · next h =>
    split at popped
    · simp at popped
    · next front h' =>
      simp only [Option.some.injEq, Prod.mk.injEq] at popped
      have lengths := congrArg List.length h'
      simp only [List.length_reverse, List.length_cons] at lengths
      simp [size, h, ← popped.2, lengths]

@[simp]
theorem toList_push (q : Queue β) (entry : β) : (q.push entry).toList = q.toList ++ [entry] := by
  simp [push, toList]

@[simp]
theorem toList_pushFront (q : Queue β) (entry : β) :
    (q.pushFront entry).toList = entry :: q.toList := by
  simp [pushFront, toList]

theorem toList_of_pop? {q rest : Queue β} {entry : β} (popped : q.pop? = some (entry, rest)) :
    q.toList = entry :: rest.toList := by
  unfold pop? at popped
  split at popped
  · next front h =>
    simp only [Option.some.injEq, Prod.mk.injEq] at popped
    simp [toList, h, ← popped.1, ← popped.2]
  · next h =>
    split at popped
    · simp at popped
    · next front h' =>
      simp only [Option.some.injEq, Prod.mk.injEq] at popped
      simp [toList, h, h', ← popped.1, ← popped.2]

theorem toList_of_pop?_eq_none {q : Queue β} (popped : q.pop? = none) : q.toList = [] := by
  unfold pop? at popped
  split at popped
  · cases popped
  · next h =>
    split at popped
    · next h' => simp [toList, h, h']
    · cases popped

/-- Rotating a queue keeps its entries. -/
theorem perm_rotate (q : Queue β) : q.rotate.toList.Perm q.toList := by
  unfold rotate
  split
  · exact .rfl
  · next entry rest popped =>
    rw [toList_push, toList_of_pop? popped]
    exact List.perm_append_singleton entry rest.toList

end Queue

end NetworkAnalysis
