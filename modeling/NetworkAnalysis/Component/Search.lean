import NetworkAnalysis.Network
import NetworkAnalysis.Run

/-!
# Depth-first search for strongly connected components

The search numbers the nodes in the order in which it discovers them. Every discovered node whose
component is open stands on a stack, and its low link is the least number on the stack that is known to
be reachable from it. A node whose low link is its own number, when all its neighbours have been looked
at, is the first node of a component: the component consists of the node and all that stands above it
on the stack.

The nodes whose neighbours are still being looked at are kept as explicit frames. The neighbours of
all of them stand in one buffer, those of the topmost frame last, and leaving a frame cuts its
neighbours off. The watch is asked once for every neighbour looked at and for every frame left.
-/

namespace NetworkAnalysis.Component

variable {n : Nat} {α : Type}

/-- A node whose neighbours are being looked at. They stand in the buffer from place `start` on. -/
structure Frame (n : Nat) where
  /-- The node. -/
  node : Fin n
  /-- The place of its first neighbour. -/
  start : Nat
  /-- The place of the neighbour to look at next. -/
  cursor : Nat
  /-- The place behind its last neighbour. -/
  stop : Nat

/-- A search under way. -/
structure Search (n : Nat) where
  /-- The number of each discovered node. -/
  index : Table n (Option Nat)
  /-- The low link of each discovered node. -/
  lowlink : Table n Nat
  /-- The nodes on the stack, as a table. -/
  onStack : Table n Bool
  /-- The discovered nodes whose components are open, the last one in front. -/
  stack : List (Fin n)
  /-- The nodes whose neighbours are being looked at, the last one in front. -/
  frames : List (Frame n)
  /-- The neighbours of the nodes of all frames, those of the last frame last. -/
  buffer : Array (Fin n)
  /-- The component of each node that has one. -/
  components : Table n (Option Nat)
  /-- The number of components. -/
  componentCount : Nat
  /-- The number of discovered nodes. -/
  counter : Nat
  /-- How often the watch was asked. -/
  polls : Nat

namespace Search

/-- The search before its first node. -/
def start : Search n where
  index := .replicate none
  lowlink := .replicate 0
  onStack := .replicate false
  stack := []
  frames := []
  buffer := #[]
  components := .replicate none
  componentCount := 0
  counter := 0
  polls := 0

/-- Discovers a node and opens a frame for it. -/
def enter (neighbours : Fin n → List (Fin n)) (s : Search n) (node : Fin n) : Search n :=
  let ⟨index, lowlink, onStack, stack, frames, buffer, components, componentCount, counter, polls⟩ := s
  let start := buffer.size
  let buffer := buffer ++ neighbours node
  { index := index.set node (some counter)
    lowlink := lowlink.set node counter
    onStack := onStack.set node true
    stack := node :: stack
    frames := ⟨node, start, start, buffer.size⟩ :: frames
    buffer, components, componentCount
    counter := counter + 1
    polls }

/-- Lowers the low link of a node to a number. -/
def lower (s : Search n) (node : Fin n) (number : Nat) : Search n :=
  { s with lowlink := s.lowlink.set node (min s.lowlink[node] number) }

/-- Looks at a neighbour of a node: one that is new is entered, one on the stack lowers the low link. -/
def look (neighbours : Fin n → List (Fin n)) (s : Search n) (node neighbour : Fin n) : Search n :=
  match s.index[neighbour] with
  | none => s.enter neighbours neighbour
  | some number => if s.onStack[neighbour] then s.lower node number else s

/-- Takes nodes from the stack, down to `node` itself, into a component. -/
def popThrough (node : Fin n) (component : Nat) :
    List (Fin n) → Table n Bool → Table n (Option Nat) →
      List (Fin n) × Table n Bool × Table n (Option Nat)
  | [], onStack, components => ([], onStack, components)
  | member :: rest, onStack, components =>
    let onStack := onStack.set member false
    let components := components.set member (some component)
    if member = node then (rest, onStack, components)
    else popThrough node component rest onStack components

/-- Closes the component of a node that is the first of one. -/
def close (s : Search n) (node : Fin n) : Search n :=
  if s.index[node] = some s.lowlink[node] then
    let ⟨index, lowlink, onStack, stack, frames, buffer, components, componentCount, counter, polls⟩ := s
    let (stack, onStack, components) := popThrough node componentCount stack onStack components
    { index, lowlink, onStack, stack, frames, buffer, components, counter, polls
      componentCount := componentCount + 1 }
  else
    s

/-- Hands the low link of a node on to the node of the frame below. -/
def handOn (s : Search n) (node : Fin n) : Search n :=
  match s.frames with
  | [] => s
  | parent :: _ => s.lower parent.node s.lowlink[node]

/-- Leaves the topmost frame, with `rest` below it. -/
def leave (s : Search n) (frame : Frame n) (rest : List (Frame n)) : Search n :=
  (close { s with frames := rest, buffer := s.buffer.shrink frame.start } frame.node).handOn frame.node

/-- One step of the topmost frame, with `rest` below it: its next neighbour is looked at, or it is left.
A place beyond the buffer would be passed over. -/
def advance (neighbours : Fin n → List (Fin n)) (s : Search n) (frame : Frame n)
    (rest : List (Frame n)) : Search n :=
  if frame.cursor < frame.stop then
    let next := s.buffer[frame.cursor]?
    let s := { s with frames := { frame with cursor := frame.cursor + 1 } :: rest }
    match next with
    | some neighbour => look neighbours s frame.node neighbour
    | none => s
  else
    s.leave frame rest

/-- The number of steps that the open frames will take by themselves. -/
def framesLeft (s : Search n) : Nat :=
  s.frames.foldr (fun frame left => frame.stop - frame.cursor + 1 + left) 0

/-- The nodes to discover, and the steps of the open frames: a step lowers the one or the other. -/
abbrev Measure (s : Search n) : Nat × Nat :=
  (s.index.count none, s.framesLeft)

theorem count_enter_lt (neighbours : Fin n → List (Fin n)) (s : Search n) (node : Fin n)
    (new : s.index[node] = none) :
    (s.enter neighbours node).index.count none < s.index.count none := by
  have counted := Table.count_set_add_one (x := some s.counter) new (by simp)
  simp only [enter]
  omega

@[simp]
theorem index_close (s : Search n) (node : Fin n) : (s.close node).index = s.index := by
  unfold close
  split <;> rfl

@[simp]
theorem frames_close (s : Search n) (node : Fin n) : (s.close node).frames = s.frames := by
  unfold close
  split <;> rfl

@[simp]
theorem index_handOn (s : Search n) (node : Fin n) : (s.handOn node).index = s.index := by
  unfold handOn
  split <;> rfl

@[simp]
theorem framesLeft_handOn (s : Search n) (node : Fin n) :
    (s.handOn node).framesLeft = s.framesLeft := by
  unfold handOn
  split <;> rfl

theorem framesLeft_step {s : Search n} {frame : Frame n} {rest : List (Frame n)}
    (frames : s.frames = frame :: rest) (more : frame.cursor < frame.stop) :
    framesLeft { s with frames := { frame with cursor := frame.cursor + 1 } :: rest }
      < s.framesLeft := by
  simp only [framesLeft, frames, List.foldr_cons]
  omega

theorem measure_look (neighbours : Fin n → List (Fin n)) (s : Search n) (node neighbour : Fin n)
    {bound : Nat} (steps : s.framesLeft < bound) :
    Prod.Lex (· < ·) (· < ·) (look neighbours s node neighbour).Measure (s.index.count none, bound) := by
  unfold look
  split
  · next new => exact Prod.Lex.left _ _ (count_enter_lt neighbours _ neighbour new)
  · split
    · exact Prod.Lex.right _ steps
    · exact Prod.Lex.right _ steps

theorem measure_advance (neighbours : Fin n → List (Fin n)) {s : Search n} {frame : Frame n}
    {rest : List (Frame n)} (frames : s.frames = frame :: rest) (polls : Nat) :
    Prod.Lex (· < ·) (· < ·) ({ s with polls }.advance neighbours frame rest).Measure s.Measure := by
  unfold advance
  split
  · next more =>
    have steps : framesLeft { s with
        polls, frames := { frame with cursor := frame.cursor + 1 } :: rest } < s.framesLeft :=
      framesLeft_step (s := s) frames more
    simp only
    split
    · next neighbour _ => exact measure_look neighbours _ frame.node neighbour steps
    · exact Prod.Lex.right _ steps
  · simp only [Measure, leave, index_handOn, index_close, framesLeft_handOn]
    refine Prod.Lex.right _ ?_
    simp only [framesLeft, frames_close, frames, List.foldr_cons]
    omega

/-- Takes steps until no frame is open. The flag says that the watch did not stop the search. -/
def drain (neighbours : Fin n → List (Fin n)) (watch : Watch) (s : Search n) : Search n × Bool :=
  match _ : s.frames with
  | [] => (s, true)
  | frame :: rest =>
    if !watch s.polls then ({ s with polls := s.polls + 1 }, false)
    else drain neighbours watch ({ s with polls := s.polls + 1 }.advance neighbours frame rest)
termination_by s.Measure
decreasing_by exact measure_advance neighbours (by assumption) _

/-- Searches from each node of a list that has not been discovered, and announces the fraction of
discovered nodes after each. The flag says that the watch did not stop the search. -/
def roots [Scalar α] (neighbours : Fin n → List (Fin n)) (watch : Watch) :
    List (Fin n) → Search n → (progress : Array α) → Search n × Array α × Bool
  | [], s, progress => (s, progress, true)
  | root :: rest, s, progress =>
    if s.index[root] ≠ none then roots neighbours watch rest s progress
    else
      match (s.enter neighbours root).drain neighbours watch with
      | (s, false) => (s, progress, false)
      | (s, true) =>
        roots neighbours watch rest s (progress.push (Scalar.fraction s.counter n))

end Search

end NetworkAnalysis.Component
