import NetworkAnalysis.Decimal.Text
import NetworkAnalysis.Text.Padding

/-!
# JSON documents

Values of the JSON format and their two written forms: on one line without blanks, and spread over lines
with two blanks for each level of nesting. Members of an object are written in the order given.
-/

namespace NetworkAnalysis

/-- A JSON document. -/
inductive Json where
  /-- The value that stands for nothing. -/
  | null
  /-- A truth value. -/
  | bool (value : Bool)
  /-- A whole number. -/
  | int (value : Int)
  /-- A double. -/
  | double (value : Float)
  /-- A text. -/
  | text (value : String)
  /-- A list of values. -/
  | list (values : List Json)
  /-- Named values, in order. -/
  | object (members : List (String × Json))

namespace Json

/-- A count. -/
def nat (value : Nat) : Json := .int value

/-- A value or nothing. -/
def option {β : Type} (write : β → Json) : Option β → Json
  | none => .null
  | some value => write value

/-- The four hexadecimal digits of a character code in an escape. -/
def codeDigits (code : Nat) : String :=
  Text.zeroPadded 4 (String.ofList (Nat.toDigits 16 code))

/-- A character inside a quoted text. Quotes, backslashes and control characters are escaped. -/
def escape (c : Char) : String :=
  match c with
  | '"' => "\\\""
  | '\\' => "\\\\"
  | '\n' => "\\n"
  | '\r' => "\\r"
  | '\t' => "\\t"
  | '\x08' => "\\b"
  | '\x0c' => "\\f"
  | c => if c.toNat < 32 then "\\u" ++ codeDigits c.toNat else c.toString

/-- A text in quotes. -/
def quote (text : String) : String :=
  "\"" ++ String.join (text.toList.map escape) ++ "\""

/-- The left brace, which opens an object. -/
def leftBrace : String := "\x7b"

/-- The right brace, which closes an object. -/
def rightBrace : String := "\x7d"

mutual

/-- The written form on one line. -/
def compact : Json → String
  | .null => "null"
  | .bool value => if value then "true" else "false"
  | .int value => toString value
  | .double value => Decimal.json value
  | .text value => quote value
  | .list values => "[" ++ ",".intercalate (compactAll values) ++ "]"
  | .object members => leftBrace ++ ",".intercalate (compactMembers members) ++ rightBrace

/-- The written forms of the values of a list. -/
def compactAll : List Json → List String
  | [] => []
  | value :: rest => compact value :: compactAll rest

/-- The written forms of the members of an object. -/
def compactMembers : List (String × Json) → List String
  | [] => []
  | (name, value) :: rest => (quote name ++ ":" ++ compact value) :: compactMembers rest

end

/-- A new line at a level of nesting. -/
def line (level : Nat) : String :=
  "\n" ++ Text.repeated (2 * level) ' '

/-- Parts on lines of their own between two brackets; no parts leave the brackets together. -/
def block (left right : String) (level : Nat) (parts : List String) : String :=
  if parts.isEmpty then left ++ right
  else left ++ line (level + 1) ++ ("," ++ line (level + 1)).intercalate parts ++ line level ++ right

mutual

/-- The written form over several lines, at a level of nesting. -/
def prettyAt (level : Nat) : Json → String
  | .list values => block "[" "]" level (prettyAll (level + 1) values)
  | .object members => block leftBrace rightBrace level (prettyMembers (level + 1) members)
  | .null => "null"
  | .bool value => if value then "true" else "false"
  | .int value => toString value
  | .double value => Decimal.json value
  | .text value => quote value

/-- The written forms of the values of a list. -/
def prettyAll (level : Nat) : List Json → List String
  | [] => []
  | value :: rest => prettyAt level value :: prettyAll level rest

/-- The written forms of the members of an object. -/
def prettyMembers (level : Nat) : List (String × Json) → List String
  | [] => []
  | (name, value) :: rest => (quote name ++ ": " ++ prettyAt level value) :: prettyMembers level rest

end

/-- The written form over several lines. -/
def pretty (j : Json) : String :=
  prettyAt 0 j

end Json

end NetworkAnalysis
