/-!
# Padding

Columns of text are filled up with blanks to a number of characters; longer texts stay as they are.
-/

namespace NetworkAnalysis.Text

/-- The text of `count` equal characters. -/
def repeated (count : Nat) (c : Char) : String :=
  String.ofList (List.replicate count c)

/-- The text at the left of a column of `width` characters. -/
def padRight (width : Nat) (text : String) : String :=
  text ++ repeated (width - text.length) ' '

/-- The text at the right of a column of `width` characters. -/
def padLeft (width : Nat) (text : String) : String :=
  repeated (width - text.length) ' ' ++ text

/-- The text behind as many zeros as fill `width` characters. -/
def zeroPadded (width : Nat) (text : String) : String :=
  repeated (width - text.length) '0' ++ text

end NetworkAnalysis.Text
