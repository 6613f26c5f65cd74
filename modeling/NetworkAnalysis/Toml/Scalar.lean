import NetworkAnalysis.Text.Number
import NetworkAnalysis.Toml.Value
import NetworkAnalysis.Word

/-!
# Numbers, truth values and dates in TOML

These values are words: rows of letters, digits and a few signs. `readWord` tells from the whole word what
it is. Digits may be parted by single underscores, and a decimal number has no leading zeros.
-/

namespace NetworkAnalysis.Toml

/-- Whether a character can be part of a word. -/
def isWordChar (c : Char) : Bool :=
  c.isAlphanum || c == '+' || c == '-' || c == '_' || c == '.' || c == ':'

/-- The digits of a row of digits with single underscores between them. -/
def plainDigits? (isDigit : Char → Bool) : List Char → Option (List Char)
  | [] => none
  | [d] => if isDigit d then some [d] else none
  | d :: '_' :: rest => if isDigit d then (plainDigits? isDigit rest).map (d :: ·) else none
  | d :: rest => if isDigit d then (plainDigits? isDigit rest).map (d :: ·) else none

/-- The digits of a decimal number without leading zeros. -/
def decimalDigits? (text : List Char) : Option (List Char) :=
  (plainDigits? Char.isDigit text).filter fun digits => digits.head? != some '0' || digits.length == 1

/-- The sign of a number, true for a minus sign, and what follows it. -/
def splitSign : List Char → Bool × List Char
  | '-' :: rest => (true, rest)
  | '+' :: rest => (false, rest)
  | rest => (false, rest)

/-- A number, if it fits 64 bits with a sign. -/
def int64? (value : Int) : Option Value :=
  if -(wordHalf : Int) ≤ value ∧ value < wordHalf then some (.int value) else none

/-- The value of a digit up to `f`. -/
def hexValue (c : Char) : Nat :=
  if c.isDigit then c.toNat - '0'.toNat else c.toLower.toNat - 'a'.toNat + 10

/-- Whether a character is a digit in a base up to sixteen. -/
def isDigitIn (base : Nat) (c : Char) : Bool :=
  (c.isDigit || (0x61 ≤ c.toLower.toNat && c.toLower.toNat ≤ 0x66)) && hexValue c < base

/-- Reads a number in a base other than ten, without its mark. -/
def readBase (base : Nat) (text : List Char) : Option Value := do
  let digits ← plainDigits? (isDigitIn base) text
  int64? (digits.foldl (fun value c => base * value + hexValue c) 0)

/-- Reads a whole number. -/
def readInt (text : List Char) : Option Value :=
  match text with
  | '0' :: 'x' :: rest => readBase 16 rest
  | '0' :: 'o' :: rest => readBase 8 rest
  | '0' :: 'b' :: rest => readBase 2 rest
  | text => do
    let (negative, text) := splitSign text
    let value := Text.digitsValue (← decimalDigits? text)
    int64? (if negative then -(value : Int) else value)

/-- Whether a text is the power of ten behind a number. -/
def isExponent (text : List Char) : Bool :=
  match text with
  | mark :: rest =>
    (mark == 'e' || mark == 'E') && (plainDigits? Char.isDigit (splitSign rest).2).isSome
  | [] => false

/-- Whether a text is a point with digits behind it, and perhaps a power of ten. -/
def isFraction (text : List Char) : Bool :=
  match text with
  | '.' :: rest =>
    let places := rest.takeWhile fun c => c.isDigit || c == '_'
    let behind := rest.dropWhile fun c => c.isDigit || c == '_'
    (plainDigits? Char.isDigit places).isSome && (behind.isEmpty || isExponent behind)
  | _ => false

/-- Reads a double. One that is written in digits must not come out as positive infinity. -/
def readFloat (text : List Char) : Option Value :=
  let (_, unsigned) := splitSign text
  if unsigned = "inf".toList ∨ unsigned = "nan".toList then (Text.readDouble text).map .float
  else
    let whole := unsigned.takeWhile fun c => c.isDigit || c == '_'
    let behind := unsigned.dropWhile fun c => c.isDigit || c == '_'
    if (decimalDigits? whole).isSome && (isFraction behind || isExponent behind) then
      ((Text.readDouble (text.filter (· != '_'))).filter fun x => !(x == 1.0 / 0.0)).map .float
    else
      none

/-- Reads exactly `count` digits as a number between two bounds. -/
def readDigits (count low high : Nat) (text : List Char) : Option (Nat × List Char) :=
  let digits := text.take count
  let value := Text.digitsValue digits
  if digits.length = count ∧ digits.all Char.isDigit ∧ low ≤ value ∧ value ≤ high then
    some (value, text.drop count)
  else
    none

/-- Takes a given character. -/
def take (c : Char) (text : List Char) : Option (List Char) :=
  match text with
  | d :: rest => if c = d then some rest else none
  | [] => none

/-- The number of days of a month. -/
def daysIn (year month : Nat) : Nat :=
  if month = 2 then
    if year % 4 = 0 ∧ (year % 100 ≠ 0 ∨ year % 400 = 0) then 29 else 28
  else if month = 4 ∨ month = 6 ∨ month = 9 ∨ month = 11 then 30
  else 31

/-- Takes a day off the front of a text. -/
def takeDay (text : List Char) : Option (List Char) := do
  let (year, text) ← readDigits 4 0 9999 text
  let (month, text) ← readDigits 2 1 12 (← take '-' text)
  let (_, text) ← readDigits 2 1 (daysIn year month) (← take '-' text)
  pure text

/-- Takes a time of day off the front of a text. -/
def takeTime (text : List Char) : Option (List Char) := do
  let (_, text) ← readDigits 2 0 23 text
  let (_, text) ← readDigits 2 0 59 (← take ':' text)
  let (_, text) ← readDigits 2 0 60 (← take ':' text)
  match text with
  | '.' :: rest =>
    let places := rest.takeWhile Char.isDigit
    if places.isEmpty then none else some (rest.dropWhile Char.isDigit)
  | text => some text

/-- Whether a text is a time zone or nothing. -/
def isOffset (text : List Char) : Bool :=
  match text with
  | [] => true
  | ['Z'] => true
  | ['z'] => true
  | sign :: rest =>
    (sign == '+' || sign == '-') && (do
      let (_, rest) ← readDigits 2 0 23 rest
      let (_, rest) ← readDigits 2 0 59 (← take ':' rest)
      pure rest.isEmpty : Option Bool).getD false

/-- Whether a text is a time of day with an optional time zone. -/
def isTimeWithOffset (text : List Char) : Bool :=
  match takeTime text with
  | some rest => isOffset rest
  | none => false

/-- Whether a word is a day alone. -/
def isDay (word : List Char) : Bool :=
  takeDay word == some []

/-- Whether a word is a day, a time, or both with a letter between. -/
def isDate (word : List Char) : Bool :=
  takeTime word == some []
    || match takeDay word with
      | some [] => true
      | some (mark :: rest) => (mark == 'T' || mark == 't') && isTimeWithOffset rest
      | none => false

/-- What a word stands for. -/
def readWord (word : List Char) : Option Value :=
  if word = "true".toList then some (.bool true)
  else if word = "false".toList then some (.bool false)
  else if isDate word then some .date
  else (readFloat word).or (readInt word)

end NetworkAnalysis.Toml
