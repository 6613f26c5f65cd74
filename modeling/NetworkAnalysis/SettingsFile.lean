import NetworkAnalysis.Settings
import NetworkAnalysis.Toml.Document

/-!
# Settings files

A settings file is a TOML document with the tables `load` and `louvain` and the number `concurrency`. Names
that are not listed here are passed over, and what is not said keeps its default. A section may also be
written as an array of its values in the order in which the section lists them.
-/

namespace NetworkAnalysis.SettingsFile

open Toml (Value Entries)

/-- What is wrong with a settings file. -/
inductive Fault where
  /-- The text is no document, or a value in it has the wrong type. -/
  | malformed
  /-- A value is refused. -/
  | refused (reason : Error)
deriving DecidableEq, Repr

/-- The message about a settings file. -/
def Fault.message : Fault → String
  | malformed => "the file is no settings document"
  | refused reason => reason.message

/-- Reads a whole number that is not negative. -/
def readCount : Value → Option Nat
  | .int value => if 0 ≤ value then some value.toNat else none
  | _ => none

/-- Reads a number. -/
def readNumber : Value → Option Float
  | .int value => some (Float.ofInt value)
  | .float value => some value
  | _ => none

/-- Reads a truth value. -/
def readTruth : Value → Option Bool
  | .bool value => some value
  | _ => none

/-- Whether a value holds nothing. -/
def holdsNothing : Value → Bool
  | .array values => values.isEmpty
  | .table _ entries => entries.isEmpty
  | _ => false

/-- Reads a choice, which is a text, or a table whose only name is the choice and holds nothing. -/
def readName : Value → Option String
  | .text name => some name
  | .table _ [(name, value)] => if holdsNothing value then some name else none
  | _ => none

/-- Reads the choice of a storage. -/
def readBackend (value : Value) : Option Backend := do
  let name ← readName value
  [Backend.dense, .huge, .auto].find? fun backend => backend.name == name

/-- Reads the choice of the weights to load. The answer says whether there are any. -/
def readWeights (value : Value) : Option Bool :=
  match readName value with
  | some "none" => some false
  | some "property" => some true
  | _ => none

/-- The named values of a section whose values have the names `names`. -/
def readSection (names : List String) : Value → Option Entries
  | .table _ entries => some entries
  | .array values => some (names.zip values)
  | .tables elements => some (names.zip (elements.map (.table .header)))
  | .date => some []
  | _ => none

/-- Reads the value of a name where there is one. Only a value that cannot be read is a failure. -/
def readMember {β : Type} (entries : Entries) (name : String) (read : Value → Option β) (default : β) :
    Option β :=
  match Toml.find? entries name with
  | none => some default
  | some value => read value

/-- Reads the section about loading. -/
def readLoad (value : Value) : Option (LoadSettings Float) := do
  let entries ← readSection ["backend", "weights", "default_weight"] value
  pure
    { backend := ← readMember entries "backend" readBackend .auto
      weighted := ← readMember entries "weights" readWeights false
      defaultWeight := ← readMember entries "default_weight" (fun v => (readNumber v).map some) none }

/-- Reads the section about communities. -/
def readCommunities (value : Value) : Option CommunitySettings := do
  let entries ← readSection ["weighted", "max_iterations", "max_levels", "concurrency"] value
  let defaults : CommunitySettings := {}
  pure
    { weighted := ← readMember entries "weighted" readTruth defaults.weighted
      maxIterations := ← readMember entries "max_iterations" readCount defaults.maxIterations
      maxLevels := ← readMember entries "max_levels" readCount defaults.maxLevels
      concurrency := ← readMember entries "concurrency" (fun v => (readCount v).map some) none }

/-- Reads the settings that a document holds. -/
def readEntries (entries : Entries) : Option (EngineSettings Float) := do
  pure
    { load := ← readMember entries "load" readLoad {}
      communities := ← readMember entries "louvain" readCommunities {}
      concurrency := ← readMember entries "concurrency" (fun v => (readCount v).map some) none }

/-- Reads a settings file and refuses settings that are unusable. -/
def read (text : String) : Except Fault (EngineSettings Float) :=
  match (Toml.parse text).bind readEntries with
  | none => .error .malformed
  | some settings =>
    match settings.validate with
    | .error reason => .error (.refused reason)
    | .ok _ => .ok settings

end NetworkAnalysis.SettingsFile
