import Std.Data.HashMap
import NetworkAnalysis.Error
import NetworkAnalysis.Word

/-!
# Numbering of nodes

A graph knows its nodes by numbers below the node count; the outside world knows each node by a label, a
natural number of its own choice. An `IdMap` numbers labels in the order in which they are added and
answers both ways. That the two tables in it are inverse to each other is part of the type.
-/

namespace NetworkAnalysis

/-- A numbering of labels. -/
structure IdMap where
  /-- The labels in the order of their numbers. -/
  labels : Array Nat
  /-- The number of every label. -/
  numbers : Std.HashMap Nat Nat
  /-- A label has a number exactly if it stands there. -/
  numbers_eq_some : ∀ label node : Nat,
    numbers[label]? = some node ↔ labels[node]? = some label

namespace IdMap

/-- The numbering without labels. -/
def empty : IdMap where
  labels := #[]
  numbers := ∅
  numbers_eq_some := by simp

/-- The number of nodes. -/
def size (m : IdMap) : Nat :=
  m.labels.size

/-- The number of a label. -/
def number? (m : IdMap) (label : Nat) : Option Nat :=
  m.numbers[label]?

/-- The label of a node. -/
def label? (m : IdMap) (node : Nat) : Option Nat :=
  m.labels[node]?

theorem number?_eq_some_iff {m : IdMap} {label node : Nat} :
    m.number? label = some node ↔ m.label? node = some label :=
  m.numbers_eq_some label node

theorem lt_size_of_number? {m : IdMap} {label node : Nat} (h : m.number? label = some node) :
    node < m.size := by
  have := number?_eq_some_iff.1 h
  simp only [label?, Array.getElem?_eq_some_iff] at this
  exact this.1

/-- The number of a label, with the bound that it is known to obey. -/
def node? (m : IdMap) (label : Nat) : Option (Fin m.size) :=
  match h : m.number? label with
  | none => none
  | some node => some ⟨node, lt_size_of_number? h⟩

/-- The label of a node of the graph. -/
def label (m : IdMap) (node : Fin m.size) : Nat :=
  let place : Fin m.labels.size := node
  m.labels[place]

/-- The label of a node, or the error that there is no such node. -/
def tryLabel (m : IdMap) (node : Nat) : Except Error Nat :=
  match m.label? node with
  | some label => .ok label
  | none => .error (.unknownNode node m.size)

theorem numbers_insert_eq_some (m : IdMap) (label : Nat) (new : m.number? label = none)
    (other node : Nat) :
    (m.numbers.insert label m.labels.size)[other]? = some node
      ↔ (m.labels.push label)[node]? = some other := by
  have key := m.numbers_eq_some
  have unused : ∀ i : Nat, m.labels[i]? ≠ some label := by
    intro i hi
    have := (key label i).2 hi
    simp [number?] at new
    simp [new] at this
  rw [Std.HashMap.getElem?_insert, Array.getElem?_push]
  by_cases same : label = other
  · subst same
    by_cases here : node = m.labels.size
    · simp [here]
    · have : m.labels.size ≠ node := fun h => here h.symm
      simp [here, this, unused]
  · have : (label == other) = false := by simp [same]
    rw [this]
    by_cases here : node = m.labels.size
    · subst here
      simp [same, key]
    · simp [here, key]

/-- The numbering with one more label, which gets the next number. The number is read first, so that the
table of labels is not in use when it grows. -/
def push (m : IdMap) (label : Nat) (new : m.number? label = none) : IdMap :=
  let next := m.labels.size
  { labels := m.labels.push label
    numbers := m.numbers.insert label next
    numbers_eq_some := numbers_insert_eq_some m label new }

@[simp]
theorem size_push (m : IdMap) (label : Nat) (new : m.number? label = none) :
    (m.push label new).size = m.size + 1 := by
  simp [push, size]

/-- Numbers one more label, unless it has a number already. Answers its number, or the error, with the
numbering after it; a refused label leaves the numbering as it was. -/
def assign (m : IdMap) (label : Nat) : IdMap × Except Error Nat :=
  let next := m.size
  if h : m.number? label = none then (m.push label h, .ok next) else (m, .error (.duplicateNode label))

/-- The numbering after one more label, or the error if the label is refused. -/
def add (m : IdMap) (label : Nat) : Except Error IdMap :=
  let (m, answer) := m.assign label
  answer.map fun _ => m

/-- The bytes of a label in a table. -/
def labelBytes : Nat := 8

/-- The numbering without labels, with room set aside for `capacity` of them. There is none if the table
would be larger than the address space that a program can use. -/
def withCapacity? (capacity : Nat) : Option IdMap :=
  if capacity * labelBytes < wordHalf then some empty else none

/-- Numbers the labels of a list in order. The first label that occurs a second time is refused. -/
def ofList (labels : List Nat) : Except Error IdMap :=
  labels.foldlM add empty

end IdMap

end NetworkAnalysis
