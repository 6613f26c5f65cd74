/-!
# Texts in TOML

Texts stand between double quotes, where a backslash begins an escape, or between single quotes, where
every character stands for itself. Three quotes in place of one allow line breaks inside; the first
one, right after the opening quotes, is dropped. Every reader here takes what follows the opening quotes and
answers the text with what follows the closing ones.
-/

namespace NetworkAnalysis.Toml

/-- Whether a character may stand in a text or a comment: all but control characters, of which tabs
are allowed. -/
def isPrintable (c : Char) : Bool :=
  c == '\t' || (32 ≤ c.toNat && c.toNat != 127)

/-- The character with a code given in hexadecimal digits. -/
def charOfHex? (digits : List Char) : Option Char :=
  if digits.all fun c => c.isDigit || (0x61 ≤ c.toLower.toNat && c.toLower.toNat ≤ 0x66) then
    let code := digits.foldl (fun code c =>
      16 * code + if c.isDigit then c.toNat - '0'.toNat else c.toLower.toNat - 'a'.toNat + 10) 0
    if code < 0xD800 ∨ (0xDFFF < code ∧ code < 0x110000) then some (Char.ofNat code) else none
  else
    none

/-- The character that one letter after a backslash stands for. -/
def escaped? (c : Char) : Option Char :=
  match c with
  | 'b' => some '\x08'
  | 't' => some '\t'
  | 'n' => some '\n'
  | 'f' => some '\x0c'
  | 'r' => some '\r'
  | '"' => some '"'
  | '\\' => some '\\'
  | _ => none

/-- Puts a character in front of a text that has been read. -/
def before (c : Char) (read : Option (List Char × List Char)) : Option (List Char × List Char) :=
  read.map fun (text, rest) => (c :: text, rest)

/-- Reads a text between double quotes. -/
def readBasic : List Char → Option (List Char × List Char)
  | [] => none
  | '"' :: rest => some ([], rest)
  | '\\' :: 'u' :: a :: b :: c :: d :: rest => do
    let character ← charOfHex? [a, b, c, d]
    before character (readBasic rest)
  | '\\' :: 'U' :: a :: b :: c :: d :: e :: f :: g :: h :: rest => do
    let character ← charOfHex? [a, b, c, d, e, f, g, h]
    before character (readBasic rest)
  | '\\' :: mark :: rest => do
    let character ← escaped? mark
    before character (readBasic rest)
  | c :: rest => if isPrintable c && c != '\\' then before c (readBasic rest) else none

/-- Reads a text between single quotes. -/
def readLiteral : List Char → Option (List Char × List Char)
  | [] => none
  | '\'' :: rest => some ([], rest)
  | c :: rest => if isPrintable c then before c (readLiteral rest) else none

/-- The text without blanks and line breaks at its start. -/
def skipLines : List Char → List Char
  | ' ' :: rest => skipLines rest
  | '\t' :: rest => skipLines rest
  | '\n' :: rest => skipLines rest
  | '\r' :: '\n' :: rest => skipLines rest
  | rest => rest

/-- The text without one line break at its start. -/
def skipBreak : List Char → List Char
  | '\n' :: rest => rest
  | '\r' :: '\n' :: rest => rest
  | rest => rest

/-- Whether only blanks stand before the next line break. -/
def endsLine (text : List Char) : Bool :=
  match text.dropWhile fun c => c == ' ' || c == '\t' with
  | '\n' :: _ => true
  | '\r' :: '\n' :: _ => true
  | _ => false

/-- Quotes at the end of a text over several lines: three close it, and up to two before them belong to
it. Answers the number of quotes that belong to the text and what follows the closing ones. -/
def closing? (quote : Char) (text : List Char) : Option (Nat × List Char) :=
  let quotes := min (text.takeWhile (· == quote)).length 5
  if 3 ≤ quotes then some (quotes - 3, text.drop quotes) else none

/-- Reads at most `bound` characters of a text between tripled double quotes. -/
def readLongBasic : (bound : Nat) → List Char → Option (List Char × List Char)
  | 0, _ => none
  | bound + 1, text =>
    match closing? '"' text with
    | some (quotes, rest) => some (List.replicate quotes '"', rest)
    | none =>
      match text with
      | [] => none
      | '\n' :: rest => before '\n' (readLongBasic bound rest)
      | '\r' :: '\n' :: rest => before '\n' (readLongBasic bound rest)
      | '\\' :: 'u' :: a :: b :: c :: d :: rest => do
        let character ← charOfHex? [a, b, c, d]
        before character (readLongBasic bound rest)
      | '\\' :: 'U' :: a :: b :: c :: d :: e :: f :: g :: h :: rest => do
        let character ← charOfHex? [a, b, c, d, e, f, g, h]
        before character (readLongBasic bound rest)
      | '\\' :: rest =>
        if endsLine rest then readLongBasic bound (skipLines rest)
        else
          match rest with
          | mark :: rest => do
            let character ← escaped? mark
            before character (readLongBasic bound rest)
          | [] => none
      | c :: rest => if isPrintable c then before c (readLongBasic bound rest) else none

/-- Reads at most `bound` characters of a text between tripled single quotes. -/
def readLongLiteral : (bound : Nat) → List Char → Option (List Char × List Char)
  | 0, _ => none
  | bound + 1, text =>
    match closing? '\'' text with
    | some (quotes, rest) => some (List.replicate quotes '\'', rest)
    | none =>
      match text with
      | [] => none
      | '\n' :: rest => before '\n' (readLongLiteral bound rest)
      | '\r' :: '\n' :: rest => before '\n' (readLongLiteral bound rest)
      | c :: rest => if isPrintable c then before c (readLongLiteral bound rest) else none

/-- Reads a text with its opening quotes. -/
def readQuoted (text : List Char) : Option (List Char × List Char) :=
  match text with
  | '"' :: '"' :: '"' :: rest => readLongBasic (rest.length + 1) (skipBreak rest)
  | '"' :: rest => readBasic rest
  | '\'' :: '\'' :: '\'' :: rest => readLongLiteral (rest.length + 1) (skipBreak rest)
  | '\'' :: rest => readLiteral rest
  | _ => none

end NetworkAnalysis.Toml
