import Mathlib
import NetworkAnalysis.Scalar

/-!
# The order of doubles

A double is read off its bit pattern as a number of a sign, a mantissa and an exponent, or as an infinity, a
zero or no number at all (`Placed`). The key by which doubles are ordered grows with that number, from
`-1 - infinite` for negative infinity up to `infinite`; keys beyond belong to what is not a number. Comparison
of numbers is comparison of keys, but for the two zeros, whose keys are `-1` and `0`.
-/

open Float.Model Float.Model.UnpackedFloat

namespace NetworkAnalysis.Double

/-! ## Reading bit patterns -/

theorem toNat_unpackMantissa (b : BitVec Format.binary64.numBits) :
    (unpackMantissa b).toNat = b.toNat % 4503599627370496 := by
  simp [unpackMantissa]

theorem toNat_unpackExponent (b : BitVec Format.binary64.numBits) :
    (unpackExponent b).toNat = b.toNat / 4503599627370496 % 2048 := by
  simp [unpackExponent, Nat.shiftRight_eq_div_pow]

theorem ofBitVec_unpackSign (b : BitVec Format.binary64.numBits) :
    Sign.ofBitVec (unpackSign b) = if b.toNat < 9223372036854775808 then .positive else .negative := by
  have bound : b.toNat < 18446744073709551616 := b.isLt
  have bit : (unpackSign b).toNat = b.toNat / 9223372036854775808 := by
    simp [unpackSign, Nat.shiftRight_eq_div_pow]
    omega
  have positive : unpackSign b = 0#1 ↔ b.toNat < 9223372036854775808 := by
    rw [← BitVec.toNat_inj, bit]
    show _ = 0 ↔ _
    omega
  simp only [Sign.ofBitVec, positive]

/-- The place of a number of a sign and a magnitude. -/
def signed : Sign → Int → Int
  | .positive, magnitude => magnitude
  | .negative, magnitude => -1 - magnitude

/-- The magnitude of infinity, above that of all finite numbers. -/
def infinite : Int := 9218868437227405312

/-- A mantissa of at most 53 bits, and of no less unless the exponent is the least. -/
structure Canonical (mantissa : Nat) (exponent : Int) : Prop where
  short : mantissa < 9007199254740992
  low : -1074 ≤ exponent
  normal : mantissa < 4503599627370496 → exponent = -1074

/-- The magnitude of a number with a mantissa and an exponent. -/
def place (mantissa : Nat) (exponent : Int) : Int := (exponent + 1074) * 4503599627370496 + mantissa

/-- What a double stands for, with its place in the total order. -/
inductive Placed : UnpackedFloat → Int → Prop
  | undefined {key : Int} (beyond : infinite < key) : Placed .notANumber key
  | infinity (sign : Sign) : Placed (.infinity sign) (signed sign infinite)
  | zero (sign : Sign) : Placed (.zero sign) (signed sign 0)
  | finite (sign : Sign) {mantissa : Nat} {exponent magnitude : Int} {positive : 0 < mantissa}
      (canonical : Canonical mantissa exponent) (high : exponent ≤ 971) (same : magnitude = place mantissa exponent) :
      Placed (.finite sign mantissa exponent positive) (signed sign magnitude)

theorem toNat_one_append (mantissa : BitVec 52) : (1#1 ++ mantissa).toNat = 4503599627370496 + mantissa.toNat := by
  rw [BitVec.toNat_append, ← Nat.shiftLeft_add_eq_or_of_lt mantissa.isLt]
  rfl

/-- A double, put together from the fields of its bit pattern. -/
def decode (sign : Sign) (exponent : BitVec 11) (mantissa : BitVec 52) : UnpackedFloat :=
  if exponent = -1#11 then
    if mantissa = 0#52 then .infinity sign else .notANumber
  else if exponent = 0#11 then
    if none : mantissa = 0#52 then .zero sign
    else .finite sign mantissa.toNat (exponent.toNat - 1075 + 1) (by
      simpa [BitVec.toNat_pos, BitVec.pos_iff_ne_zero] using none)
  else
    .finite sign (1#1 ++ mantissa).toNat (exponent.toNat - 1075) (by rw [toNat_one_append]; omega)

/-- A float is decoded to a number that has the place of its bits. -/
theorem placed_decode (sign : Sign) (exponent : BitVec 11) (mantissa : BitVec 52)
    (canonical : exponent = -1#11 → mantissa ≠ 0#52 → sign = .positive) :
    Placed (decode sign exponent mantissa) (signed sign (exponent.toNat * 4503599627370496 + mantissa.toNat)) := by
  have low := exponent.isLt
  have short := mantissa.isLt
  have whole := toNat_one_append mantissa
  have top : exponent = -1#11 ↔ exponent.toNat = 2047 := by
    rw [← BitVec.toNat_inj]
    rfl
  have bottom : exponent = 0#11 ↔ exponent.toNat = 0 := by
    rw [← BitVec.toNat_inj]
    rfl
  have digitless : mantissa = 0#52 ↔ mantissa.toNat = 0 := by
    rw [← BitVec.toNat_inj]
    rfl
  unfold decode
  by_cases above : exponent = -1#11
  · rw [if_pos above, top.1 above]
    by_cases zero : mantissa = 0#52
    · rw [if_pos zero, digitless.1 zero]
      exact .infinity sign
    · have positive := mt digitless.2 zero
      rw [if_neg zero, canonical above zero]
      refine .undefined ?_
      show infinite < 2047 * 4503599627370496 + _
      unfold infinite
      omega
  rw [if_neg above]
  by_cases below : exponent = 0#11
  · rw [if_pos below, bottom.1 below]
    by_cases zero : mantissa = 0#52
    · rw [dif_pos zero, digitless.1 zero]
      exact .zero sign
    · have positive := mt digitless.2 zero
      rw [dif_neg zero]
      exact .finite sign ⟨by omega, by omega, by omega⟩ (by omega) (by unfold place; omega)
  · have middle := mt top.2 above
    have normal := mt bottom.2 below
    rw [if_neg below]
    exact .finite sign ⟨by omega, by omega, by omega⟩ (by omega) (by unfold place; omega)

/-- The bit pattern of a double. -/
def pattern (x : Float) : BitVec Format.binary64.numBits := x.toModel.toBits.toBitVec

theorem orderKey_eq (x : Float) :
    orderKey x = signed (Sign.ofBitVec (unpackSign (pattern x)))
      ((unpackExponent (pattern x)).toNat * 4503599627370496 + (unpackMantissa (pattern x)).toNat) := by
  have bound : x.toBits.toNat < 18446744073709551616 := x.toBits.toBitVec.isLt
  rw [ofBitVec_unpackSign, toNat_unpackExponent, toNat_unpackMantissa]
  show (if x.toBits.toNat < wordHalf then (x.toBits.toNat : Int) else wordHalf - 1 - (x.toBits.toNat : Int))
    = signed (if x.toBits.toNat < 9223372036854775808 then .positive else .negative)
      ((x.toBits.toNat / 4503599627370496 % 2048 : Nat) * 4503599627370496 + (x.toBits.toNat % 4503599627370496 : Nat))
  unfold wordHalf
  split
  · dsimp only [signed]
    omega
  · dsimp only [signed]
    omega

/-- Every double has its place. -/
theorem placed_unpack (x : Float) : Placed x.toModel.unpack (orderKey x) := by
  rw [orderKey_eq]
  refine placed_decode _ _ _ fun above other => ?_
  rw [x.toModel.valid.eq_packedNaN above other]
  rfl

theorem Canonical.place_bounds {mantissa : Nat} {exponent : Int} (canonical : Canonical mantissa exponent)
    (positive : 0 < mantissa) (high : exponent ≤ 971) :
    0 < place mantissa exponent ∧ place mantissa exponent < infinite := by
  obtain ⟨short, low, -⟩ := canonical
  unfold place infinite
  omega

theorem compare_place {mantissa mantissa' : Nat} {exponent exponent' : Int} (canonical : Canonical mantissa exponent)
    (canonical' : Canonical mantissa' exponent') :
    (compare exponent exponent').then (compare mantissa mantissa')
      = compare (place mantissa exponent) (place mantissa' exponent') := by
  obtain ⟨short, low, normal⟩ := canonical
  obtain ⟨short', low', normal'⟩ := canonical'
  unfold place
  rcases Int.lt_trichotomy exponent exponent' with less | rfl | more
  · rw [Int.compare_eq_lt.2 less, Int.compare_eq_lt.2 (by omega)]
    rfl
  · rw [Int.compare_eq_eq.2 rfl]
    show compare mantissa mantissa' = _
    rcases Nat.lt_trichotomy mantissa mantissa' with less | rfl | more
    · rw [Nat.compare_eq_lt.2 less, Int.compare_eq_lt.2 (by omega)]
    · rw [Nat.compare_eq_eq.2 rfl, Int.compare_eq_eq.2 rfl]
    · rw [Nat.compare_eq_gt.2 more, Int.compare_eq_gt.2 (by omega)]
  · rw [Int.compare_eq_gt.2 more, Int.compare_eq_gt.2 (by omega)]
    rfl

theorem compare_signed_negative (k l : Int) : compare (signed .negative k) (signed .negative l) = compare l k := by
  dsimp only [signed]
  rcases Int.lt_trichotomy k l with less | rfl | more
  · rw [Int.compare_eq_gt.2 less, Int.compare_eq_gt.2 (by omega)]
  · rw [Int.compare_eq_eq.2 rfl, Int.compare_eq_eq.2 rfl]
  · rw [Int.compare_eq_lt.2 more, Int.compare_eq_lt.2 (by omega)]

/-- How two places compare: an undefined number with none, and the two zeros as equal. -/
def comparePlaces (k l : Int) : Option Ordering :=
  if infinite < k ∨ infinite < l then none
  else if (k = -1 ∨ k = 0) ∧ (l = -1 ∨ l = 0) then some .eq
  else some (compare k l)

theorem comparePlaces_of_lt {k l : Int} (number : k ≤ infinite) (number' : l ≤ infinite) (less : k < l)
    (zeros : ¬(k = -1 ∧ l = 0)) : comparePlaces k l = some .lt := by
  rw [comparePlaces, if_neg (by omega), if_neg (by omega), Int.compare_eq_lt.2 less]

theorem comparePlaces_of_gt {k l : Int} (number : k ≤ infinite) (number' : l ≤ infinite) (more : l < k)
    (zeros : ¬(l = -1 ∧ k = 0)) : comparePlaces k l = some .gt := by
  rw [comparePlaces, if_neg (by omega), if_neg (by omega), Int.compare_eq_gt.2 more]

theorem comparePlaces_of_ne {k l : Int} (number : k ≤ infinite ∧ l ≤ infinite) (finite : k < -1 ∨ 0 < k) :
    comparePlaces k l = some (compare k l) := by
  rw [comparePlaces, if_neg (by omega), if_neg (by omega)]

/-- Doubles compare as their places do. -/
theorem compare_eq {u v : UnpackedFloat} {k l : Int} (first : Placed u k) (second : Placed v l) :
    u.compare v = comparePlaces k l := by
  have undefined : ∀ {k l}, infinite < k ∨ infinite < l → none = comparePlaces k l := fun h => (if_pos h).symm
  have below : ∀ {k l}, k ≤ infinite → l ≤ infinite → k < l → ¬(k = -1 ∧ l = 0) →
      some .lt = comparePlaces k l :=
    fun number number' less zeros => (comparePlaces_of_lt number number' less zeros).symm
  have above : ∀ {k l}, k ≤ infinite → l ≤ infinite → l < k → ¬(l = -1 ∧ k = 0) →
      some .gt = comparePlaces k l :=
    fun number number' more zeros => (comparePlaces_of_gt number number' more zeros).symm
  have top : infinite = 9218868437227405312 := rfl
  rcases first with beyond | sign | sign | ⟨sign, canonical, high, rfl⟩
  · exact undefined (.inl beyond)
  all_goals
    rcases second with beyond | sign' | sign' | ⟨sign', canonical', high', rfl⟩
    · exact undefined (.inr beyond)
  case finite.finite positive _ _ positive' =>
    have bounds := canonical.place_bounds positive high
    have bounds' := canonical'.place_bounds positive' high'
    cases sign <;> cases sign'
    case positive.positive =>
      rw [comparePlaces_of_ne (by dsimp only [signed]; omega) (by dsimp only [signed]; omega)]
      exact congrArg some (compare_place canonical canonical')
    case negative.negative =>
      rw [comparePlaces_of_ne (by dsimp only [signed]; omega) (by dsimp only [signed]; omega), compare_signed_negative,
        ← Int.compare_swap, ← compare_place canonical canonical']
      rfl
    case positive.negative => apply above <;> dsimp only [signed] <;> omega
    case negative.positive => apply below <;> dsimp only [signed] <;> omega
  case finite.infinity positive | finite.zero positive =>
    have bounds := canonical.place_bounds positive high
    cases sign <;> cases sign' <;> first
      | (apply below <;> dsimp only [signed] <;> omega)
      | (apply above <;> dsimp only [signed] <;> omega)
  case infinity.finite positive' | zero.finite positive' =>
    have bounds' := canonical'.place_bounds positive' high'
    cases sign <;> cases sign' <;> first
      | (apply below <;> dsimp only [signed] <;> omega)
      | (apply above <;> dsimp only [signed] <;> omega)
  all_goals cases sign <;> cases sign' <;> rfl

theorem orderKey_injective {x y : Float} (same : orderKey x = orderKey y) : x = y := by
  have bound : x.toBits.toNat < 18446744073709551616 := x.toBits.toBitVec.isLt
  have bound' : y.toBits.toNat < 18446744073709551616 := y.toBits.toBitVec.isLt
  have bits : x.toBits.toNat = y.toBits.toNat := by
    unfold orderKey wordHalf at same
    dsimp only at same
    split at same <;> split at same <;> omega
  have words : x.toModel.toBits = y.toModel.toBits := UInt64.toNat_inj.1 bits
  obtain ⟨⟨word, _⟩⟩ := x
  obtain ⟨⟨word', _⟩⟩ := y
  obtain rfl : word = word' := words
  rfl

theorem lt_iff {x y : Float} :
    x < y ↔ orderKey x < orderKey y ∧ orderKey y ≤ infinite ∧ ¬(orderKey x = -1 ∧ orderKey y = 0) := by
  have compared : x < y ↔ comparePlaces (orderKey x) (orderKey y) = some .lt := by
    rw [← compare_eq (placed_unpack x) (placed_unpack y), ← beq_iff_eq]
    exact decide_eq_true_iff
  rw [compared, comparePlaces]
  split
  · simp only [reduceCtorEq, false_iff]
    omega
  split
  · simp only [Option.some.injEq, reduceCtorEq, false_iff]
    omega
  · rw [Option.some.injEq, Int.compare_eq_lt]
    omega

theorem le_iff {x y : Float} :
    x ≤ y ↔ orderKey x ≤ infinite ∧ orderKey y ≤ infinite
      ∧ (orderKey x ≤ orderKey y ∨ orderKey x = 0 ∧ orderKey y = -1) := by
  have compared : x ≤ y ↔ (comparePlaces (orderKey x) (orderKey y)).any (·.isLE) = true := by
    rw [← compare_eq (placed_unpack x) (placed_unpack y)]
    exact decide_eq_true_iff
  rw [compared, comparePlaces]
  split
  · simp only [Option.any_none, Bool.false_eq_true, false_iff]
    omega
  split
  · simp only [Option.any_some, Ordering.isLE_eq, true_iff]
    omega
  · rw [Option.any_some, Int.isLE_compare]
    omega

end NetworkAnalysis.Double
