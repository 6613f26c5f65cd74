import NetworkAnalysis.Source
import NetworkAnalysis.Text.Number
import NetworkAnalysis.Text.Split

/-!
# Edge lists as text

An edge list has one record on a line: a node, the two ends of an edge, or the two ends and a weight, with
blanks or commas between. A number sign begins a comment, and lines without a record are passed over.
Nodes are declared in the order in which they first appear.
-/

namespace NetworkAnalysis.EdgeFile

/-- A record of an edge list. -/
inductive Record where
  /-- A node. -/
  | node (id : Nat)
  /-- An edge without a weight. -/
  | edge (source target : Nat)
  /-- An edge with a weight. -/
  | weightedEdge (source target : Nat) (weight : Float)

/-- What is wrong with a line. -/
inductive LineFault where
  /-- The field is not a weight. -/
  | weight (field : String) (reason : String)
  /-- The field is not a label of a node. -/
  | id (field : String) (reason : Text.NumberFault)
  /-- There are too few or too many fields. -/
  | fieldCount (count : Nat)

/-- What is wrong with an edge list. -/
inductive Fault where
  /-- The bytes of a line are no text. -/
  | notText
  /-- A line, counted from one, is no record. -/
  | line (number : Nat) (fault : LineFault)

/-- The parts of the message about a line, the outer ones first. -/
def LineFault.chain (number : Nat) : LineFault → List String
  | weight field reason => [s!"line {number}: invalid weight '{field}'", reason]
  | id field reason => [s!"line {number}: invalid node id '{field}'", reason.message]
  | fieldCount count =>
    [s!"line {number}: expected 'node', 'source target' or 'source target weight', got {count} fields"]

/-- The parts of the message about an edge list, the outer ones first. -/
def Fault.chain : Fault → List String
  | notText => ["stream did not contain valid UTF-8"]
  | line number fault => fault.chain number

/-- The part of a line that holds its record. -/
def significant (line : List Char) : List Char :=
  Text.trim (line.takeWhile (· ≠ '#'))

/-- The fields of a record. -/
def fields (record : List Char) : List (List Char) :=
  (Text.splitOn (fun c => Text.isBlank c || c == ',') record).filter fun field => !field.isEmpty

/-- Reads the label of a node. -/
def readId (field : List Char) : Except LineFault Nat :=
  match Text.readNat field with
  | .ok id => .ok id
  | .error reason => .error (.id (String.ofList field) reason)

/-- Reads a weight. -/
def readWeight (field : List Char) : Except LineFault Float :=
  match Text.readDouble field with
  | some weight => .ok weight
  | none => .error (.weight (String.ofList field) (Text.doubleMessage field))

/-- Reads the fields of a record. A weight is read before the two labels. -/
def readFields (fields : List (List Char)) : Except LineFault Record :=
  match fields with
  | [node] => do
    let node ← readId node
    pure (.node node)
  | [source, target] => do
    let source ← readId source
    let target ← readId target
    pure (.edge source target)
  | [source, target, weight] => do
    let weight ← readWeight weight
    let source ← readId source
    let target ← readId target
    pure (.weightedEdge source target weight)
  | fields => .error (.fieldCount fields.length)

/-- Reads the record of a line, if there is one. -/
def readLine (line : List Char) : Except LineFault (Option Record) :=
  let record := significant line
  if record.isEmpty then .ok none
  else
    match readFields (fields record) with
    | .ok record => .ok (some record)
    | .error fault => .error fault

/-- The edge list with one more record. -/
def Record.addTo (l : EdgeList Float) : Record → EdgeList Float
  | node id => l.addNode id
  | edge source target => l.addEdge source target none
  | weightedEdge source target weight => l.addEdge source target (some weight)

/-- Reads lines, of which `number` is the first; bytes that are no text stand as `none`. -/
def readLines : (number : Nat) → List (Option (List Char)) → EdgeList Float →
    Except Fault (EdgeList Float)
  | _, [], l => .ok l
  | _, none :: _, _ => .error .notText
  | number, some line :: rest, l =>
    match readLine line with
    | .error fault => .error (.line number fault)
    | .ok none => readLines (number + 1) rest l
    | .ok (some record) => readLines (number + 1) rest (record.addTo l)

/-- The lines of a file, each decoded by itself. -/
def lines (bytes : ByteArray) : List (Option (List Char)) :=
  (Text.splitOn (· == 10) bytes.toList).map fun line =>
    (String.fromUTF8? ⟨line.toArray⟩).map String.toList

/-- Reads the bytes of an edge list. -/
def read (bytes : ByteArray) : Except Fault (EdgeList Float) :=
  readLines 1 (lines bytes) .empty

end NetworkAnalysis.EdgeFile
