/-!
# Words

Ids, counts and encoded numbers are words of 64 bits.
-/

namespace NetworkAnalysis

/-- The number of values of a word, which is two to the power of 64. -/
def wordValues : Nat := 18446744073709551616

/-- The number of values of a signed word that are not negative, which is half of all values. -/
def wordHalf : Nat := 9223372036854775808

end NetworkAnalysis
