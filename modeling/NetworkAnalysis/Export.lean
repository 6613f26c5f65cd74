import NetworkAnalysis.IdMap
import NetworkAnalysis.Run
import NetworkAnalysis.Scalar
import NetworkAnalysis.Word

/-!
# Exporting results

A result is exported node by node, in the order of the node numbers. A translator says which value a node
has, if any, and a writer takes the value together with the label of the node. The watch is asked
at the first of every `exportBatch` nodes. An export ends after the last node, when the watch stops it,
or with the first value that the writer refuses.
-/

namespace NetworkAnalysis

/-- A value of an exported property. -/
inductive PropertyValue (α : Type) where
  /-- A signed 64-bit number. -/
  | int (value : Int)
  /-- A number of the arithmetic in use. -/
  | double (value : α)
  /-- The label of a node. -/
  | node (label : Nat)
deriving DecidableEq, Repr

/-- The value of each node, where it has one. -/
abbrev Translator (α : Type) := Nat → Option (PropertyValue α)

namespace Translator

variable {α : Type}

/-- A count as a signed 64-bit number; counts from `2^63` on wrap around. -/
def signed (value : Nat) : Int :=
  Int.bmod value wordValues

/-- One number for each node. -/
def ofNats (data : Array Nat) : Translator α := fun node =>
  data[node]?.map fun value => .int (signed value)

/-- A number for some nodes. -/
def ofNats? (data : Array (Option Nat)) : Translator α := fun node =>
  (data.getD node none).map fun value => .int (signed value)

/-- One cost for each node. What counts as unreachable is left out. -/
def ofCosts [Scalar α] (data : Array α) : Translator α := fun node =>
  (data[node]?.filter fun value => decide (value < Scalar.unreachable)).map .double

/-- References to nodes, exported as their labels. References to no node are left out. -/
def ofReferences (ids : IdMap) (data : Array (Option Nat)) : Translator α := fun node =>
  (data.getD node none).bind fun target => (ids.label? target).map .node

end Translator

/-- A value on its way to a writer. -/
structure Property (α : Type) where
  /-- The label of the node. -/
  label : Nat
  /-- The name of the property. -/
  name : String
  /-- The value. -/
  value : PropertyValue α
deriving DecidableEq, Repr

/-- A writer with states of type `ω`, which takes a value or refuses it. -/
abbrev Writer (ω ε α : Type) := ω → Property α → Except ε ω

/-- How an export ended. -/
inductive Ending (ε : Type) where
  /-- After the last node. -/
  | finished
  /-- The watch stopped it. -/
  | stopped
  /-- The writer refused a value. -/
  | refused (reason : ε)
deriving DecidableEq, Repr

/-- What an export has done. -/
structure Exported (ω ε : Type) where
  /-- The writer after the last value that it took. -/
  writer : ω
  /-- How many values it took. -/
  written : Nat
  /-- How often the watch was asked. -/
  polls : Nat
  /-- How the export ended. -/
  ending : Ending ε

namespace Export

variable {α ω ε : Type}

/-- The number of nodes between two questions to the watch. -/
def exportBatch : Nat := 10000

/-- Whether the watch is asked at a node. -/
def asksAt (node : Nat) : Bool :=
  node % exportBatch == 0

/-- Exports a list of nodes; `written` values were taken and `polls` questions asked before. -/
def writeNodes (ids : IdMap) (name : String) (translate : Translator α) (write : Writer ω ε α)
    (watch : Watch) : List (Fin ids.size) → (writer : ω) → (written polls : Nat) → Exported ω ε
  | [], writer, written, polls => { writer, written, polls, ending := .finished }
  | node :: rest, writer, written, polls =>
    if asksAt node && !watch polls then { writer, written, polls := polls + 1, ending := .stopped }
    else
      let polls := if asksAt node then polls + 1 else polls
      match translate node with
      | none => writeNodes ids name translate write watch rest writer written polls
      | some value =>
        match write writer { label := ids.label node, name, value } with
        | .error reason => { writer, written, polls, ending := .refused reason }
        | .ok writer => writeNodes ids name translate write watch rest writer (written + 1) polls

/-- Exports a property of all nodes. -/
def write (ids : IdMap) (name : String) (translate : Translator α) (write : Writer ω ε α)
    (watch : Watch) (writer : ω) : Exported ω ε :=
  writeNodes ids name translate write watch (List.finRange ids.size) writer 0 0

end Export

end NetworkAnalysis
