import NetworkAnalysis.Json

/-!
# Layout of reports

A report is written in one of three modes: for people in sections with aligned columns, for scripts with
one setting on a line, or as a JSON document. A `Page` holds all three forms of a report.
-/

namespace NetworkAnalysis.Command

/-- The modes of output. -/
inductive OutputMode where
  /-- Sections with aligned columns. -/
  | pretty
  /-- One setting on a line. -/
  | text
  /-- A JSON document. -/
  | json
deriving DecidableEq, Repr

namespace OutputMode

/-- The mode of a name. -/
def ofName? : String → Option OutputMode
  | "pretty" => some pretty
  | "text" => some text
  | "json" => some json
  | _ => none

/-- The mode of a run: the one that was named, else JSON if that was asked for, else the one that the
environment names in any case, else text. -/
def choose (named : Option OutputMode) (asJson : Bool) (environment : Option String) : OutputMode :=
  match named with
  | some mode => mode
  | none =>
    if asJson then json
    else
      (environment.bind fun name => ofName? (String.ofList (name.toList.map Char.toLower))).getD text

end OutputMode

/-- A report in its three forms. -/
structure Page where
  /-- The form for people. -/
  pretty : String
  /-- The form for scripts. -/
  text : String
  /-- The form as a document. -/
  json : Json

/-- What is written in a mode. -/
def Page.inMode (page : Page) : OutputMode → String
  | .pretty => page.pretty
  | .text => page.text
  | .json => page.json.pretty ++ "\n"

namespace Layout

/-- The width of the rule under a heading. -/
def ruleWidth : Nat := 72

/-- The width of the first column. -/
def keyWidth : Nat := 16

/-- A heading with a rule under it. -/
def heading (title : String) : String :=
  title ++ "\n" ++ Text.repeated ruleWidth '-' ++ "\n"

/-- A line for people. -/
def column (key value : String) : String :=
  Text.padRight keyWidth (key ++ ":") ++ " " ++ value ++ "\n"

/-- A line for scripts. -/
def setting (key value : String) : String :=
  key ++ "=" ++ value ++ "\n"

/-- A truth value in a line. -/
def truth (value : Bool) : String :=
  if value then "true" else "false"

end Layout

end NetworkAnalysis.Command
