/-!
# Blanks, lines and fields

A text is looked at as a list of characters. `isBlank` holds of the characters that Unicode calls white
space. `splitOn` cuts a list at every entry that is a separator; the separators belong to no part, and
there is always one part more than there are separators.
-/

namespace NetworkAnalysis.Text

/-- The codes of the blank characters beyond ASCII, as ranges with both ends. -/
def wideBlanks : List (Nat × Nat) :=
  [(0x85, 0x85), (0xA0, 0xA0), (0x1680, 0x1680), (0x2000, 0x200A), (0x2028, 0x2029),
   (0x202F, 0x202F), (0x205F, 0x205F), (0x3000, 0x3000)]

/-- Whether a character is white space: tab to carriage return, the space, and those beyond ASCII. -/
def isBlank (c : Char) : Bool :=
  let code := c.toNat
  (9 ≤ code && code ≤ 13) || code == 32
    || wideBlanks.any fun (first, last) => first ≤ code && code ≤ last

/-- The text without blanks at its start. -/
def trimLeft (text : List Char) : List Char :=
  text.dropWhile isBlank

/-- The text without blanks at its start and its end. -/
def trim (text : List Char) : List Char :=
  (trimLeft (trimLeft text).reverse).reverse

variable {β : Type}

/-- Puts an entry in front of the first of several parts, or begins a new part after a separator. -/
def extend (isSeparator : β → Bool) (entry : β) (parts : List (List β)) : List (List β) :=
  if isSeparator entry then [] :: parts
  else
    match parts with
    | [] => [[entry]]
    | part :: rest => (entry :: part) :: rest

/-- The parts between the separators. -/
def splitOn (isSeparator : β → Bool) (entries : List β) : List (List β) :=
  entries.foldr (extend isSeparator) [[]]

end NetworkAnalysis.Text
