import NetworkAnalysis.Toml.Quoted
import NetworkAnalysis.Toml.Scalar

/-!
# TOML documents

A document is a sequence of lines: key-value lines, headers, comments and empty lines. Values may go on
over several lines inside brackets and tripled quotes. `parse` reads a whole document and answers the
table that it describes, or `none` if it is not well formed. Values are nested less than `maxDepth` deep, and
keys have fewer parts than that.
-/

namespace NetworkAnalysis.Toml

/-- The bound of nesting. -/
def maxDepth : Nat := 80

/-- The text without blanks at its start. -/
def skipBlanks (text : List Char) : List Char :=
  text.dropWhile fun c => c == ' ' || c == '\t'

/-- Whether a character can be part of a key without quotes. -/
def isKeyChar (c : Char) : Bool :=
  c.isAlphanum || c == '_' || c == '-'

/-- Reads one part of a key. -/
def readKeyPart (text : List Char) : Option (String × List Char) :=
  match text with
  | '"' :: rest => (readBasic rest).map fun (key, rest) => (String.ofList key, rest)
  | '\'' :: rest => (readLiteral rest).map fun (key, rest) => (String.ofList key, rest)
  | text =>
    let key := text.takeWhile isKeyChar
    if key.isEmpty then none else some (String.ofList key, text.dropWhile isKeyChar)

/-- Reads a key of at most `parts` parts, with blanks around it and around the dots. -/
def readKey : (parts : Nat) → List Char → Option (List String × List Char)
  | 0, _ => none
  | parts + 1, text => do
    let (part, rest) ← readKeyPart (skipBlanks text)
    match skipBlanks rest with
    | '.' :: rest =>
      let (key, rest) ← readKey parts rest
      pure (part :: key, rest)
    | rest => pure ([part], rest)

/-- The way of a key to its last part, and the last part. -/
def splitKey (key : List String) : List String × String :=
  (key.dropLast, key.getLastD "")

/-- What follows a comment, which ends with its line. -/
def skipComment (text : List Char) : Option (List Char) :=
  match text.dropWhile isPrintable with
  | [] => some []
  | '\n' :: rest => some rest
  | '\r' :: '\n' :: rest => some rest
  | _ => none

/-- What follows the rest of a line that holds nothing more, or a comment. -/
def endLine (text : List Char) : Option (List Char) :=
  match skipBlanks text with
  | [] => some []
  | '\n' :: rest => some rest
  | '\r' :: '\n' :: rest => some rest
  | '#' :: rest => skipComment rest
  | _ => none

/-- What follows at most `lines` blanks, line breaks and comments. -/
def skipSpace : (lines : Nat) → List Char → Option (List Char)
  | 0, text => some text
  | lines + 1, text =>
    match skipLines text with
    | '#' :: rest => do
      let rest ← skipComment rest
      skipSpace lines rest
    | rest => some rest

/-- Reads a word; a day may be followed by a blank and a time. -/
def readPlain (text : List Char) : Option (Value × List Char) :=
  let word := text.takeWhile isWordChar
  let rest := text.dropWhile isWordChar
  match rest with
  | ' ' :: second =>
    if isDay word && isTimeWithOffset (second.takeWhile isWordChar) then
      some (.date, second.dropWhile isWordChar)
    else
      (readWord word).map fun value => (value, rest)
  | rest => (readWord word).map fun value => (value, rest)

/-- Reads the values of an array after its opening bracket, with `readValue` for each. The bound is larger
than the length of the text, and so than the number of values and of comments. -/
def readItems (readValue : List Char → Option (Value × List Char)) :
    (bound : Nat) → List Char → Option (List Value × List Char)
  | 0, _ => none
  | bound + 1, text => do
    let text ← skipSpace (bound + 1) text
    match text with
    | ']' :: rest => pure ([], rest)
    | text => do
      let (value, text) ← readValue text
      let text ← skipSpace (bound + 1) text
      match text with
      | ',' :: rest => do
        let (values, rest) ← readItems readValue bound rest
        pure (value :: values, rest)
      | ']' :: rest => pure ([value], rest)
      | _ => none

/-- Reads a key, an equals sign and a value. -/
def readPair (readValue : List Char → Option (Value × List Char)) (text : List Char) :
    Option ((List String × Value) × List Char) := do
  let (key, text) ← readKey (maxDepth - 1) text
  match text with
  | '=' :: text => do
    let (value, text) ← readValue (skipBlanks text)
    pure ((key, value), text)
  | _ => none

/-- Reads the entries of a table after its opening brace or after a comma, at most `bound` of them, and
adds them to those before. -/
def readEntries (readValue : List Char → Option (Value × List Char)) :
    (bound : Nat) → List Char → Entries → Option (Entries × List Char)
  | 0, _, _ => none
  | bound + 1, text, entries => do
    let ((key, value), text) ← readPair readValue text
    let (way, name) := splitKey key
    let entries ← addEntry way name value (.inline, entries)
    match skipBlanks text with
    | ',' :: rest => readEntries readValue bound rest entries
    | '\x7d' :: rest => pure (entries, rest)
    | _ => none

/-- Reads a value that is nested less than `depth` deep. -/
def readValue : (depth : Nat) → List Char → Option (Value × List Char)
  | 0, _ => none
  | depth + 1, text =>
    match text with
    | '"' :: _ => (readQuoted text).map fun (value, rest) => (.text (String.ofList value), rest)
    | '\'' :: _ => (readQuoted text).map fun (value, rest) => (.text (String.ofList value), rest)
    | '[' :: rest =>
      if depth = 0 then none
      else
        (readItems (readValue depth) (rest.length + 1) rest).map fun (values, rest) =>
          (.array values, rest)
    | '\x7b' :: rest =>
      if depth = 0 then none
      else
        match skipBlanks rest with
        | '\x7d' :: rest => some (.table .inline [], rest)
        | rest =>
          (readEntries (readValue depth) (rest.length + 1) rest []).map fun (entries, rest) =>
            (.table .inline entries, rest)
    | text => readPlain text

/-- A document under way: its table, and the key of the last header. -/
structure Progress where
  /-- The table of all lines so far. -/
  root : Entries
  /-- The way to the table that key-value lines go to. -/
  header : List String

namespace Progress

/-- Reads a header after its opening brackets. -/
def readHeader (closing : List Char)
    (start : (way : List String) → (name : String) → Entries → Option Entries)
    (p : Progress) (text : List Char) : Option (Progress × List Char) := do
  let (key, text) ← readKey (maxDepth - 1) text
  if closing.isPrefixOf text then
    let rest ← endLine (text.drop closing.length)
    let (way, name) := splitKey key
    let root ← start way name p.root
    pure ({ root, header := key }, rest)
  else
    none

/-- Reads a key-value line. -/
def readLine (p : Progress) (text : List Char) : Option (Progress × List Char) := do
  let ((key, value), text) ← readPair (readValue maxDepth) text
  let rest ← endLine text
  let (way, name) := splitKey key
  let root ← descend false (addEntry way name value) p.header (.header, p.root)
  pure ({ p with root }, rest)

/-- Reads one line that is not empty. -/
def readExpression (p : Progress) (text : List Char) : Option (Progress × List Char) :=
  match text with
  | '#' :: rest => (skipComment rest).map fun rest => (p, rest)
  | '[' :: '[' :: rest => readHeader [']', ']'] openElement p rest
  | '[' :: rest => readHeader [']'] openTable p rest
  | text => readLine p text

/-- Reads at most `bound` lines. -/
def readDocument : (bound : Nat) → Progress → List Char → Option Entries
  | 0, _, _ => none
  | bound + 1, p, text =>
    match skipLines text with
    | [] => some p.root
    | text => do
      let (p, rest) ← readExpression p text
      readDocument bound p rest

end Progress

/-- Reads a document. A byte order mark in front is passed over. -/
def parse (text : String) : Option Entries :=
  let characters :=
    match text.toList with
    | '\ufeff' :: rest => rest
    | characters => characters
  Progress.readDocument (characters.length + 1) { root := [], header := [] } characters

end NetworkAnalysis.Toml
