import NetworkAnalysis.Command.Layout
import NetworkAnalysis.Command.World
import NetworkAnalysis.EdgeFile
import NetworkAnalysis.SettingsFile

/-!
# Failures of a command

A failure is a cause together with what was being done, the widest activity first. People read it on one
line; where the cause is an error of the library, its hint follows.
-/

namespace NetworkAnalysis.Command

/-- The causes of failures. -/
inductive Cause where
  /-- An error of loading or of an analysis. -/
  | graph (reason : Error)
  /-- The settings file is wrong. -/
  | settings (fault : SettingsFile.Fault)
  /-- The edge list is wrong. -/
  | edges (fault : EdgeFile.Fault)
  /-- A file could not be used. -/
  | file (fault : FileFault)
  /-- A file that should hold text does not. -/
  | notText

namespace Cause

/-- The parts of the message about a cause. -/
def chain : Cause → List String
  | graph reason => [reason.message]
  | settings fault => [fault.message]
  | edges fault => fault.chain
  | file fault => [fault.message]
  | notText => ["stream did not contain valid UTF-8"]

/-- The error of the library behind a cause. -/
def libraryError? : Cause → Option Error
  | graph reason => some reason
  | settings (.refused reason) => some reason
  | _ => none

end Cause

/-- A failure of a command. -/
structure Failure where
  /-- What was being done, the widest activity first. -/
  activities : List String := []
  /-- The cause. -/
  cause : Cause

namespace Failure

/-- The failure seen from a wider activity. -/
def during (activity : String) (f : Failure) : Failure :=
  { f with activities := activity :: f.activities }

/-- The message about a failure. -/
def message (f : Failure) : String :=
  ": ".intercalate (f.activities ++ f.cause.chain)

/-- What to try about a failure. -/
def hint (f : Failure) : Option String :=
  f.cause.libraryError?.bind Error.hint

/-- The failure as a document. -/
def toJson (f : Failure) : Json :=
  let code :=
    match f.cause.libraryError? with
    | none => []
    | some reason => [("error_code", Json.text reason.code.identifier)]
  let suggestion :=
    match f.hint with
    | none => []
    | some hint => [("suggestion", Json.text hint)]
  .object [("error", .object (code ++ [("message", .text f.message)] ++ suggestion))]

/-- What is written about a failure in a mode. -/
def inMode (f : Failure) : OutputMode → String
  | .json => f.toJson.pretty ++ "\n"
  | _ =>
    "error: " ++ f.message ++ "\n"
      ++ (match f.hint with
        | none => ""
        | some hint => "  suggestion: " ++ hint ++ "\n")

end Failure

end NetworkAnalysis.Command
