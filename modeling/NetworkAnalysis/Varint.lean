import NetworkAnalysis.Paged
import NetworkAnalysis.Word

/-!
# Variable-length numbers

A number is written in base 128, least significant digit first, one digit to a byte; the high bit of a
byte says that another byte follows. Numbers below `2^64` take at most ten bytes.
-/

namespace NetworkAnalysis.Varint

/-- The bytes of a number. -/
def encode (value : Nat) : List UInt8 :=
  if value < 128 then [UInt8.ofNat value]
  else UInt8.ofNat (value % 128 + 128) :: encode (value / 128)
termination_by value

/-- Reads at most `bound` digits from a cursor on: the number they stand for, of any size, and the cursor
behind the last one. Answers `none` when the bytes end first. -/
def readDigits (bytes : Paged UInt8) : (bound : Nat) → Paged.Cursor → Option (Nat × Paged.Cursor)
  | 0, _ => none
  | bound + 1, cursor =>
    match bytes.next? cursor with
    | none => none
    | some (byte, cursor) =>
      if byte.toNat < 128 then some (byte.toNat, cursor)
      else
        (readDigits bytes bound cursor).map fun (value, cursor) =>
          (byte.toNat % 128 + 128 * value, cursor)

/-- Reads the number at a cursor, and answers the cursor behind it. Answers `none` when the bytes end before
the number does. What is read is meant to be what `encode` has written of a number below `2^64`. A longer run of
bytes is no such number: here its bits from the 64th on are dropped, where arithmetic on words would fail or
shift them to other places. -/
def readAt (bytes : Paged UInt8) (cursor : Paged.Cursor) : Option (Nat × Paged.Cursor) :=
  (readDigits bytes bytes.size cursor).map fun (value, cursor) => (value % wordValues, cursor)

/-- Reads the number that starts at a position, and says where the next one starts. -/
def read (bytes : Paged UInt8) (position : Nat) : Option (Nat × Nat) :=
  (readAt bytes (.ofIndex position)).map fun (value, cursor) => (value, cursor.index)

end NetworkAnalysis.Varint
