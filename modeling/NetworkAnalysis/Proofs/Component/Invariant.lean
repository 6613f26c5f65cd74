import Mathlib
import NetworkAnalysis.Component.Search

/-!
# The invariant of the component search

The invariant has three parts. `Stacked` says how numbers, stack and frames belong together: the stack is
ordered by number, and the nodes of the frames stand on it in the same order. `Linked` says what the low
links mean: each is the number of a node on the stack that can be reached, none is larger than the number
of a node on the stack that a relationship looked at leads to, and a node whose frame has been left has
handed its low link on to a frame below. `Closed` says what holds of the components found so far.

Which relationships have been looked at is a parameter of `Linked`. It is read off the cursors of the frames
(`Looked`), which move on before the search knows what to make of the neighbour.
-/

namespace NetworkAnalysis.Component

open Relation

variable {n : Nat}

/-- A node can be reached from another along relationships. -/
def Reaches (neighbours : Fin n → List (Fin n)) : Fin n → Fin n → Prop :=
  ReflTransGen fun u v => v ∈ neighbours u

theorem Reaches.refl (neighbours : Fin n → List (Fin n)) (u : Fin n) : Reaches neighbours u u :=
  ReflTransGen.refl

theorem Reaches.trans {neighbours : Fin n → List (Fin n)} {u v w : Fin n}
    (first : Reaches neighbours u v) (second : Reaches neighbours v w) : Reaches neighbours u w :=
  ReflTransGen.trans first second

theorem Reaches.tail {neighbours : Fin n → List (Fin n)} {u v w : Fin n}
    (first : Reaches neighbours u v) (second : w ∈ neighbours v) : Reaches neighbours u w :=
  ReflTransGen.tail first second

namespace Search

/-- The number of a node, zero if it has none. -/
def number (s : Search n) (node : Fin n) : Nat :=
  s.index[node].getD 0

/-- The nodes whose neighbours are being looked at, the last one in front. -/
def active (s : Search n) : List (Fin n) :=
  s.frames.map Frame.node

theorem number_of_index {s : Search n} {node : Fin n} {number : Nat}
    (found : s.index[node] = some number) : s.number node = number := by
  rw [Search.number, found]
  rfl

/-- Numbers, stack and frames belong together. -/
structure Stacked (s : Search n) : Prop where
  number_lt : ∀ v : Fin n, s.index[v] ≠ none → s.number v < s.counter
  descending : s.stack.Pairwise fun u v => s.number v < s.number u
  onStack : ∀ v : Fin n, s.onStack[v] = true ↔ v ∈ s.stack
  discovered : ∀ v : Fin n, s.index[v] ≠ none ↔ v ∈ s.stack ∨ s.components[v] ≠ none
  open' : ∀ v ∈ s.stack, s.components[v] = none
  frames : s.active.Sublist s.stack

/-- Low links mean what they should, once the relationships in `looked` have been looked at. -/
structure Linked (neighbours : Fin n → List (Fin n)) (looked : Fin n → Fin n → Prop) (s : Search n) :
    Prop where
  /-- No low link is above the number of its node. -/
  low_le : ∀ v ∈ s.stack, s.lowlink[v] ≤ s.number v
  /-- A low link is the number of a node on the stack that can be reached. -/
  low_reached : ∀ v ∈ s.stack, ∃ w ∈ s.stack, s.number w = s.lowlink[v] ∧ Reaches neighbours v w
  /-- A node whose frame was left is not the first of its component. -/
  left : ∀ v ∈ s.stack, v ∉ s.active → s.lowlink[v] < s.number v
  /-- From the node of a frame all later nodes on the stack can be reached. -/
  below : ∀ f ∈ s.active, ∀ v ∈ s.stack, s.number f ≤ s.number v → Reaches neighbours f v
  /-- Low links have been handed on to a frame. -/
  handed : ∀ f ∈ s.active, ∀ v ∈ s.stack, s.number f ≤ s.number v →
    ∃ g ∈ s.active, s.number f ≤ s.number g ∧ s.lowlink[g] ≤ s.lowlink[v]
  /-- Only discovered nodes have been looked at. -/
  seen : ∀ v ∈ s.stack, ∀ w, looked v w → s.index[w] ≠ none
  /-- A relationship that has been looked at bounds the low link. -/
  back : ∀ v ∈ s.stack, ∀ w ∈ s.stack, looked v w → s.lowlink[v] ≤ s.number w

/-- The components found so far are whole, and no relationship leads to a later one. -/
structure Closed (neighbours : Fin n → List (Fin n)) (s : Search n) : Prop where
  leads : ∀ (v : Fin n) (c : Nat), s.components[v] = some c →
    ∀ w ∈ neighbours v, ∃ d, s.components[w] = some d ∧ d ≤ c
  connected : ∀ (u v : Fin n) (c : Nat), s.components[u] = some c → s.components[v] = some c →
    Reaches neighbours u v
  used : ∀ c, (∃ v : Fin n, s.components[v] = some c) ↔ c < s.componentCount

/-- The neighbours of the nodes of frames stand in a buffer, frame after frame. -/
def Laid (neighbours : Fin n → List (Fin n)) : List (Frame n) → List (Fin n) → Prop
  | [], buffer => buffer = []
  | frame :: rest, buffer =>
    ∃ before : List (Fin n), buffer = before ++ neighbours frame.node ∧ frame.start = before.length
      ∧ frame.stop = buffer.length ∧ frame.start ≤ frame.cursor ∧ frame.cursor ≤ frame.stop
      ∧ Laid neighbours rest before

/-- A relationship of a node has been looked at. If the node has a frame, its cursor says so. -/
def Looked (neighbours : Fin n → List (Fin n)) (s : Search n) (v w : Fin n) : Prop :=
  w ∈ neighbours v ∧ ∀ frame ∈ s.frames, frame.node = v →
    w ∈ (neighbours v).take (frame.cursor - frame.start)

/-- The invariant of the search. -/
structure Sound (neighbours : Fin n → List (Fin n)) (s : Search n) : Prop where
  stacked : s.Stacked
  linked : s.Linked neighbours (s.Looked neighbours)
  closed : s.Closed neighbours
  laid : Laid neighbours s.frames s.buffer.toList

variable {neighbours : Fin n → List (Fin n)} {s : Search n} {looked looked' : Fin n → Fin n → Prop}

theorem Stacked.index_ne_none (h : s.Stacked) {v : Fin n} (member : v ∈ s.stack) :
    s.index[v] ≠ none :=
  (h.discovered v).2 (.inl member)

theorem Stacked.mem_stack (h : s.Stacked) {v : Fin n} (member : v ∈ s.active) : v ∈ s.stack :=
  h.frames.subset member

theorem Stacked.active_nodup (h : s.Stacked) : s.active.Nodup :=
  (h.descending.sublist h.frames).imp fun less same => by
    rw [same] at less
    exact Nat.lt_irrefl _ less

/-- Nodes on the stack have different numbers. -/
theorem Stacked.eq_of_number (h : s.Stacked) {u v : Fin n} (hu : u ∈ s.stack) (hv : v ∈ s.stack)
    (same : s.number u = s.number v) : u = v := by
  have distinct : s.stack.Pairwise fun u v => s.number u ≠ s.number v :=
    h.descending.imp fun less => (Nat.ne_of_lt less).symm
  have : Std.Symm fun u v : Fin n => s.number u ≠ s.number v := ⟨fun _ _ apart => apart.symm⟩
  by_contra other
  exact distinct.forall hu hv other same

/-- The node of the topmost frame has the largest number of all nodes with frames. -/
theorem Stacked.number_le_top (h : s.Stacked) {frame : Frame n} {rest : List (Frame n)}
    (frames : s.frames = frame :: rest) {f : Fin n} (member : f ∈ s.active) :
    s.number f ≤ s.number frame.node := by
  have ordered := h.descending.sublist h.frames
  rw [active, frames, List.map_cons] at ordered member
  rcases List.mem_cons.1 member with rfl | below
  · exact Nat.le_refl _
  · exact Nat.le_of_lt ((List.pairwise_cons.1 ordered).1 f below)

theorem Linked.mono (h : s.Linked neighbours looked)
    (fewer : ∀ v ∈ s.stack, ∀ w, looked' v w → looked v w) : s.Linked neighbours looked' :=
  { h with
    seen := fun v member w look => h.seen v member w (fewer v member w look)
    back := fun v member w member' look => h.back v member w member' (fewer v member w look) }

/-- When no frame is open, the stack is empty. -/
theorem Linked.stack_eq_nil (h : s.Linked neighbours looked) (idle : s.frames = []) :
    s.stack = [] := by
  have noFrame : ∀ v, v ∉ s.active := by
    simp [active, idle]
  -- every node on the stack would lead to one with a smaller number
  have descent : ∀ number, ∀ v ∈ s.stack, s.number v ≠ number := by
    intro number
    induction number using Nat.strongRecOn with
    | _ number ih =>
      rintro v member rfl
      obtain ⟨w, member', low, -⟩ := h.low_reached v member
      exact ih (s.number w) (low ▸ h.left v member (noFrame v)) w member' rfl
  rw [List.eq_nil_iff_forall_not_mem]
  intro v member
  exact descent _ v member rfl

theorem sound_start (neighbours : Fin n → List (Fin n)) : (start : Search n).Sound neighbours := by
  refine ⟨?_, ?_, ?_, rfl⟩
  · constructor <;> simp [active, start]
  · constructor <;> simp [start]
  · constructor <;> simp [start]

end Search

end NetworkAnalysis.Component
