import NetworkAnalysis.Error
import NetworkAnalysis.Graph

/-!
# Settings

What can be configured about a load, about community detection and about the program, the values that
hold where nothing is said, and which values are refused.
-/

namespace NetworkAnalysis

/-- The storage that a load is asked for. -/
inductive Backend where
  /-- Flat arrays. -/
  | dense
  /-- Paged arrays. -/
  | huge
  /-- Flat arrays as long as the counts fit them. -/
  | auto
deriving DecidableEq, Repr

namespace Backend

/-- The name of a backend. -/
def name : Backend → String
  | dense => "dense"
  | huge => "huge"
  | auto => "auto"

/-- Reads a backend by its name, in any ASCII case. -/
def ofName (text : String) : Except Error Backend :=
  match String.ofList (text.toList.map Char.toLower) with
  | "dense" => .ok dense
  | "heavy" => .ok dense
  | "huge" => .ok huge
  | "auto" => .ok auto
  | other => .error (.misconfigured (.unknownBackend other))

/-- The largest number of nodes or relationships that a backend can number. -/
def capacity : Backend → Nat
  | dense => Storage.capacity .dense
  | huge => Storage.capacity .huge
  | auto => Storage.capacity .huge

end Backend

/-- How a graph is loaded. -/
structure LoadSettings (α : Type) where
  /-- The storage to load into. -/
  backend : Backend := .auto
  /-- Whether weights are loaded. -/
  weighted : Bool := false
  /-- The weight of relationships without one of their own. -/
  defaultWeight : Option α := none
deriving Repr

/-- Refuses a default weight that is negative or not finite. -/
def LoadSettings.validate {α : Type} [Scalar α] (s : LoadSettings α) : Except Error Unit :=
  match s.defaultWeight with
  | none => .ok ()
  | some weight =>
    if !Scalar.isFinite weight || decide (weight < Scalar.zero) then
      .error (.misconfigured (.defaultWeight (Scalar.text weight)))
    else
      .ok ()

/-- Refuses a setting of zero. -/
def requirePositive (setting : Setting) (value : Nat) : Except Error Unit :=
  if value = 0 then .error (.misconfigured (.zeroSetting setting)) else .ok ()

/-- How communities are searched. -/
structure CommunitySettings where
  /-- Whether relationships count by their weights instead of one each. -/
  weighted : Bool := false
  /-- The largest number of passes over the nodes of a level. -/
  maxIterations : Nat := 20
  /-- The largest number of levels. -/
  maxLevels : Nat := 10
  /-- The number of workers; `none` is as many as the machine offers. -/
  concurrency : Option Nat := none
deriving DecidableEq, Repr

/-- Refuses caps and a number of workers of zero. -/
def CommunitySettings.validate (s : CommunitySettings) : Except Error Unit := do
  requirePositive .maxIterations s.maxIterations
  requirePositive .maxLevels s.maxLevels
  requirePositive .concurrency (s.concurrency.getD 1)

/-- Everything that a configuration file can say. -/
structure EngineSettings (α : Type) where
  /-- How graphs are loaded. -/
  load : LoadSettings α := {}
  /-- How communities are searched. -/
  communities : CommunitySettings := {}
  /-- The number of shared workers; `none` is as many as the machine offers. -/
  concurrency : Option Nat := none
deriving Repr

/-- Refuses the first part that is unusable. -/
def EngineSettings.validate {α : Type} [Scalar α] (s : EngineSettings α) : Except Error Unit := do
  s.load.validate
  s.communities.validate
  requirePositive .concurrency (s.concurrency.getD 1)

end NetworkAnalysis
