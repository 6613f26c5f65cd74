/-!
# TOML values and tables

A TOML document is a table of values. A table remembers how it came about, because that decides how it may
be added to: `addEntry` puts the value of a key-value line into a table, `openTable` and `openElement`
begin the table of a header. Each of them answers `none` when the document would define something twice.
-/

namespace NetworkAnalysis.Toml

/-- How a table came about. -/
inductive Origin where
  /-- It has a header of its own, or it is the whole document. -/
  | header
  /-- It stands on the way to a table with a header. -/
  | implied
  /-- It was named by a dotted key. -/
  | dotted
  /-- It is written between braces and complete. -/
  | inline
deriving DecidableEq, Repr

/-- A value of a document. Dates are recognised and not kept. -/
inductive Value where
  /-- A text. -/
  | text (value : String)
  /-- A whole number of 64 bits. -/
  | int (value : Int)
  /-- A double. -/
  | float (value : Float)
  /-- A truth value. -/
  | bool (value : Bool)
  /-- A date, a time or both. -/
  | date
  /-- A list of values. -/
  | array (values : List Value)
  /-- A table. -/
  | table (origin : Origin) (entries : List (String × Value))
  /-- The tables of headers with doubled brackets. -/
  | tables (elements : List (List (String × Value)))

/-- The named values of a table. -/
abbrev Entries := List (String × Value)

/-- A table with its origin. -/
abbrev Table := Origin × Entries

/-- The value of a name. -/
def find? (entries : Entries) (name : String) : Option Value :=
  (entries.find? fun entry => entry.1 == name).map Prod.snd

/-- The entries with another value for a name, which comes last. -/
def put (entries : Entries) (name : String) (value : Value) : Entries :=
  (entries.filter fun entry => entry.1 != name) ++ [(name, value)]

/-- Whether the way to a place may lead through a table: tables between braces are closed, and a dotted key
may not add to a table with a header. -/
def Origin.allows (byKey : Bool) : Origin → Bool
  | .header => !byKey
  | .implied => true
  | .dotted => true
  | .inline => false

/-- Changes the table at the end of a way, where missing tables on the way are made. The way leads through
the last table of an array of tables. -/
def descend (byKey : Bool) (change : Table → Option Entries) : List String → Table → Option Entries
  | [], table => change table
  | name :: way, (_, entries) =>
    match find? entries name with
    | none => do
      let origin := if byKey then Origin.dotted else Origin.implied
      let inner ← descend byKey change way (origin, [])
      pure (put entries name (.table origin inner))
    | some (.table origin inner) =>
      if origin.allows byKey then do
        let inner ← descend byKey change way (origin, inner)
        pure (put entries name (.table origin inner))
      else
        none
    | some (.tables elements) => do
      let last ← elements.getLast?
      let last ← descend byKey change way (.header, last)
      pure (put entries name (.tables (elements.dropLast ++ [last])))
    | some _ => none

/-- Adds a value to a table under a dotted key. The value has to be new, and a key with dots ends in a
table that was named by dotted keys only. -/
def addEntry (way : List String) (name : String) (value : Value) (table : Table) : Option Entries :=
  descend true
    (fun (origin, entries) =>
      if (origin == .dotted) == way.isEmpty then none
      else if (find? entries name).isSome then none
      else some (entries ++ [(name, value)]))
    way table

/-- Begins the table of a header. A table that stood on the way to others may get a header once. -/
def openTable (way : List String) (name : String) (root : Entries) : Option Entries :=
  descend false
    (fun (_, entries) =>
      match find? entries name with
      | none => some (put entries name (.table .header []))
      | some (.table .implied inner) => some (put entries name (.table .header inner))
      | some _ => none)
    way (.header, root)

/-- Begins one more table of an array of tables. -/
def openElement (way : List String) (name : String) (root : Entries) : Option Entries :=
  descend false
    (fun (_, entries) =>
      match find? entries name with
      | none => some (put entries name (.tables [[]]))
      | some (.tables elements) => some (put entries name (.tables (elements ++ [[]])))
      | some _ => none)
    way (.header, root)

end NetworkAnalysis.Toml
