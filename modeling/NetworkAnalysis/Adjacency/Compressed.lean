import NetworkAnalysis.Adjacency.Row
import NetworkAnalysis.Varint

/-!
# Compressed lists of numbers

Ascending lists of numbers, one for each node, are written as the differences of neighbouring entries,
each as a variable-length number, all into one paged array of bytes. `starts` says at which byte a list
begins, and `firsts` how many entries come before it; the difference of two neighbouring `firsts` is
the length of a list.
-/

namespace NetworkAnalysis.Adjacency

/-- Compressed lists. -/
structure Compressed where
  /-- The byte at which each list begins. -/
  starts : Paged Nat
  /-- The number of entries before each list, and of all entries at the end. -/
  firsts : Paged Nat
  /-- The differences, encoded. -/
  bytes : Paged UInt8

namespace Compressed

variable {σ : Type}

/-- Compressed lists under construction. -/
structure Builder where
  /-- The byte at which each list begins. -/
  starts : Paged.Builder Nat
  /-- The number of entries before each list. -/
  firsts : Paged.Builder Nat
  /-- The differences, encoded. -/
  bytes : Paged.Builder UInt8
  /-- The number of entries of all lists. -/
  entries : Nat

namespace Builder

/-- The builder without lists. -/
def empty : Builder where
  starts := .empty
  firsts := .empty
  bytes := .empty
  entries := 0

/-- The bytes of the differences of a list whose previous entry is `previous`. -/
def differences : Nat → List Nat → List UInt8
  | _, [] => []
  | previous, value :: rest => Varint.encode (value - previous) ++ differences value rest

/-- The builder with one more list, which has to be ascending. -/
def pushSorted (b : Builder) (values : List Nat) : Builder where
  starts := b.starts.push b.bytes.size
  firsts := b.firsts.push b.entries
  bytes := b.bytes.append (differences 0 values)
  entries := b.entries + values.length

/-- The finished lists. -/
def build (b : Builder) : Compressed where
  starts := b.starts.build
  firsts := (b.firsts.push b.entries).build
  bytes := b.bytes.build

end Builder

/-- The compressed form of ascending lists. -/
def ofLists (lists : List (List Nat)) : Compressed :=
  (lists.foldl Builder.pushSorted .empty).build

/-- The number of entries before the list of a node. -/
def first (a : Compressed) (node : Nat) : Nat :=
  (a.firsts.get? node).getD 0

/-- The length of the list of a node. -/
def degree (a : Compressed) (node : Nat) : Nat :=
  a.first (node + 1) - a.first node

/-- The number of entries of all lists. -/
def entryCount (a : Compressed) : Nat :=
  a.first (a.firsts.size - 1)

/-- Decodes `count` entries from a cursor on and shows each of them, with its number among all entries, to a
visitor. -/
def visitFrom (a : Compressed) (visitor : Visitor σ (Nat × Nat)) :
    (count : Nat) → Paged.Cursor → (previous number : Nat) → σ → σ × Bool
  | 0, _, _, _, state => (state, true)
  | count + 1, cursor, previous, number, state =>
    match Varint.readAt a.bytes cursor with
    | none => (state, true)
    | some (difference, cursor) =>
      match visitor state (previous + difference, number) with
      | (state, true) => visitFrom a visitor count cursor (previous + difference) (number + 1) state
      | (state, false) => (state, false)

/-- Shows the list of a node to a visitor. -/
def visit (a : Compressed) (node : Nat) (visitor : Visitor σ (Nat × Nat)) (state : σ) : σ × Bool :=
  visitFrom a visitor (a.degree node) (.ofIndex ((a.starts.get? node).getD 0)) 0 (a.first node) state

/-- The bytes that the three arrays take, at eight bytes for a number. -/
def byteCount (a : Compressed) : Nat :=
  8 * a.starts.stored + 8 * a.firsts.stored + a.bytes.stored

end Compressed

end NetworkAnalysis.Adjacency
