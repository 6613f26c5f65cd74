import NetworkAnalysis.Word

/-!
# Numbers in texts

The grammar of the numbers in edge lists, configuration files and arguments. A natural number is a row of
digits, with a plus sign in front if one likes, and has to stay below `2^64`. A double is a row of digits
with an optional point in it, an optional sign in front and an optional power of ten behind it, or one of
the words for infinity and for no number.
-/

namespace NetworkAnalysis.Text

/-- Why a text is not a natural number below `2^64`. -/
inductive NumberFault where
  /-- There is nothing to read. -/
  | empty
  /-- A character is not a digit. -/
  | digit
  /-- The number is too large. -/
  | large
deriving DecidableEq, Repr

/-- What is said about a text that is not a natural number. -/
def NumberFault.message : NumberFault → String
  | empty => "cannot parse integer from empty string"
  | digit => "invalid digit found in string"
  | large => "number too large to fit in target type"

/-- The value of a decimal digit. -/
def digitValue? (c : Char) : Option Nat :=
  if c.isDigit then some (c.toNat - '0'.toNat) else none

/-- Reads digits behind the number `value`. The first character that is no digit, or that makes the number
too large, decides what is wrong. -/
def readDigits : (value : Nat) → List Char → Except NumberFault Nat
  | value, [] => .ok value
  | value, c :: rest =>
    match digitValue? c with
    | none => .error .digit
    | some d => if 10 * value + d < wordValues then readDigits (10 * value + d) rest else .error .large

/-- Reads a natural number below `2^64`. -/
def readNat (text : List Char) : Except NumberFault Nat :=
  match text with
  | [] => .error .empty
  | ['+'] => .error .digit
  | ['-'] => .error .digit
  | '+' :: rest => readDigits 0 rest
  | text => readDigits 0 text

/-- The number that a row of digits stands for. -/
def digitsValue (digits : List Char) : Nat :=
  digits.foldl (fun value c => 10 * value + (c.toNat - '0'.toNat)) 0

/-- The power of ten that a row of digits stands for. Behind a power of `2^16` or more no digit counts. -/
def exponentValue (digits : List Char) : Nat :=
  digits.foldl
    (fun value c => if value < 65536 then 10 * value + (c.toNat - '0'.toNat) else value) 0

/-- Reads the power of ten behind a number: nothing, or a mark, an optional sign and digits. -/
def readExponent (text : List Char) : Option Int :=
  match text with
  | [] => some 0
  | mark :: rest =>
    if mark = 'e' ∨ mark = 'E' then
      let (negative, digits) :=
        match rest with
        | '+' :: digits => (false, digits)
        | '-' :: digits => (true, digits)
        | digits => (false, digits)
      if digits ≠ [] ∧ digits.all Char.isDigit then
        some (if negative then -(exponentValue digits : Int) else exponentValue digits)
      else
        none
    else
      none

/-- Reads an unsigned number: digits with an optional point among, before or behind them, and an optional
power of ten. Answers the digits as one number and the power of ten of the last one. -/
def readScientific (text : List Char) : Option (Nat × Int) :=
  let whole := text.takeWhile Char.isDigit
  let rest := text.dropWhile Char.isDigit
  let (places, rest) :=
    match rest with
    | '.' :: rest => (rest.takeWhile Char.isDigit, rest.dropWhile Char.isDigit)
    | rest => ([], rest)
  if whole = [] ∧ places = [] then none
  else
    (readExponent rest).map fun exponent =>
      (digitsValue (whole ++ places), exponent - places.length)

/-- The double nearest to `digits · 10^exponent`. Numbers beyond the range of doubles are not multiplied
out. -/
def nearestDouble (digits : Nat) (exponent : Int) : Float :=
  let magnitude : Int := (toString digits).length + exponent
  if digits = 0 ∨ magnitude < -400 then 0.0
  else if 400 < magnitude then 1.0 / 0.0
  else if 0 ≤ exponent then Float.ofScientific (digits * Nat.pow 10 exponent.toNat) false 0
  else Float.ofScientific digits true (-exponent).toNat

/-- Reads an unsigned double: a number or a word. -/
def readUnsigned (text : List Char) : Option Float :=
  match String.ofList (text.map Char.toLower) with
  | "inf" => some (1.0 / 0.0)
  | "infinity" => some (1.0 / 0.0)
  | "nan" => some (0.0 / 0.0)
  | _ => (readScientific text).map fun (digits, exponent) => nearestDouble digits exponent

/-- Reads a double. -/
def readDouble (text : List Char) : Option Float :=
  match text with
  | '+' :: rest => readUnsigned rest
  | '-' :: rest => (readUnsigned rest).map fun x => -x
  | text => readUnsigned text

/-- What is said about a text that is not a double. -/
def doubleMessage (text : List Char) : String :=
  if text.isEmpty then "cannot parse float from empty string" else "invalid float literal"

end NetworkAnalysis.Text
