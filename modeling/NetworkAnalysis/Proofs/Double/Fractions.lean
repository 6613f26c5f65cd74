import NetworkAnalysis.Proofs.Double.Rounding

/-!
# Counts and fractions of counts as doubles

The double of a count and the quotient of two doubles are rounded to the nearest place. So the fraction that a
part is of a whole grows with the part, and it is one when the part is the whole, as long as the double of the
whole is finite.
-/

open Float.Model Float.Model.UnpackedFloat

namespace NetworkAnalysis.Double

/-! ## Counts -/

theorem one_unpack : (Float.ofBits 0x3FF0000000000000).toModel.unpack
    = .finite .positive 4503599627370496 (-52) (by decide) :=
  rfl

/-- Multiplication by one changes nothing. -/
theorem orderKey_mul_one {x : Float} (low : 0 < orderKey x) (high : orderKey x < infinite) :
    orderKey (x * Float.ofBits 0x3FF0000000000000) = orderKey x := by
  have placed := placed_unpack x
  show orderKey (.ofModel (.pack (.mul .binary64 x.toModel.unpack
    (Float.ofBits 0x3FF0000000000000).toModel.unpack))) = _
  rw [one_unpack]
  generalize x.toModel.unpack = u at placed
  generalize orderKey x = l at placed low high
  rcases placed.of_nonneg low.le high.le with ⟨rfl, rfl⟩ | ⟨rfl, rfl⟩
    | ⟨mantissa, exponent, positive, rfl, canonical, rfl⟩
  · exact absurd high (Int.lt_irrefl _)
  · exact absurd low (Int.lt_irrefl _)
  · obtain ⟨k, near, same⟩ := orderKey_padded 52 positive (show exponent - (52 : Nat) ≤ unit mantissa exponent by
      unfold unit
      omega)
    rw [← magnitude_place canonical.low (.inl canonical)] at near
    obtain rfl := near.unique (nearest_magnitude _)
    rw [Int.min_eq_left high.le] at same
    exact same

theorem toFloat_eq {n : Nat} (positive : 0 < n) (word : n < 18446744073709551616) :
    n.toUInt64.toFloat = .ofModel (.pack (.round .binary64 .positive n 0)) := by
  have value : n.toUInt64.toNat = n := Nat.mod_eq_of_lt word
  show Float.ofModel (.pack (.normalize .binary64 (n.toUInt64.toNat : Int) 0 .positive)) = _
  rw [value, UnpackedFloat.normalize, Int.compare_eq_gt.2 (by omega), Int.toNat_natCast]

theorem ofNat_of_lt {n : Nat} (exact : n < 9007199254740992) :
    Float.ofNat n = n.toUInt64.toFloat * Float.ofBits 0x3FF0000000000000 := by
  show Float.ofScientific n false 0 = _
  rw [Float.ofScientific, dif_pos ⟨exact, by omega⟩]
  rfl

theorem ofNat_of_le {n : Nat} (large : 9007199254740992 ≤ n) :
    Float.ofNat n = .ofModel (.pack (roundWithAccuracy .binary64 .positive (n * 2 ^ 53) (-53) .exact)) := by
  show Float.ofScientific n false 0 = _
  rw [Float.ofScientific, dif_neg (by omega)]
  show Float.ofModel (.pack (UnpackedFloat.ofScientific .binary64 n 0)) = _
  rw [UnpackedFloat.ofScientific, dif_neg (by omega), if_neg (by decide), if_neg, if_pos (Int.le_refl 0)]
  · rw [UnpackedFloat.mul, Nat.shiftLeft_eq]
    show Float.ofModel (.pack (roundWithAccuracy .binary64 .positive (n * 2 ^ 53 * 1) (-53) .exact)) = _
    rw [Nat.mul_one]
  · show ¬((0 : Int) < -((2 ^ 11 : Int) + n.log2))
    omega

theorem magnitude_one : magnitude (place 4503599627370496 (-52)) = 1 := by
  rw [magnitude_place (by omega) (.inl ⟨by omega, by omega, by omega⟩)]
  norm_num

theorem magnitude_wordValues : magnitude (place 4503599627370496 12) = wordValues := by
  rw [magnitude_place (by omega) (.inl ⟨by omega, by omega, by omega⟩), wordValues]
  norm_num

/-- The place of a positive word is between zero and infinity. -/
theorem Nearest.word_bounds {n : Nat} {k : Int} (near : Nearest n k) (positive : 0 < n) (word : n < wordValues) :
    0 < k ∧ k < infinite := by
  have least : (1 : Rat) ≤ n := by exact_mod_cast positive
  have most : (n : Rat) ≤ wordValues := by exact_mod_cast word.le
  rw [← magnitude_one] at least
  rw [← magnitude_wordValues] at most
  have := (nearest_magnitude _).le_of_le near least
  have := near.le_of_le (nearest_magnitude _) most
  unfold place infinite at *
  omega

/-- The double of a count is rounded to the nearest place. -/
theorem nearest_ofNat (n : Nat) : ∃ k, Nearest n k ∧ orderKey (Float.ofNat n) = min k infinite := by
  rcases Nat.eq_zero_or_pos n with rfl | positive
  · refine ⟨0, ?_, by decide +kernel⟩
    rw [Nat.cast_zero, ← magnitude_zero]
    exact nearest_magnitude 0
  by_cases exact : n < 9007199254740992
  · obtain ⟨k, near, same⟩ := @orderKey_round n 0 positive
    rw [zpow_zero, mul_one] at near
    rw [← toFloat_eq positive (by omega)] at same
    have bounds := near.word_bounds positive (by unfold wordValues; omega)
    rw [ofNat_of_lt exact, orderKey_mul_one (by omega) (by omega)]
    exact ⟨k, near, same⟩
  · obtain ⟨k, near, same⟩ := orderKey_padded 53 positive (show 0 - ((53 : Nat) : Int) ≤ unit n 0 by
      unfold unit
      omega)
    rw [zpow_zero, mul_one] at near
    rw [ofNat_of_le (by omega)]
    exact ⟨k, near, same⟩

/-! ## Quotients -/

/-- A quotient of natural numbers represents the fraction, if its accuracy is that of what the division leaves. -/
theorem represents_div (total : Nat) {divisor : Nat} (positive : 0 < divisor) :
    Represents (total / divisor) (accuracyOfFraction (total % divisor) divisor) (total / divisor : Rat) := by
  have divides : (0 : Rat) < divisor := by exact_mod_cast positive
  have whole : (total / divisor : Rat) = (total / divisor : Nat) + (total % divisor : Nat) / divisor := by
    rw [eq_comm, add_div' _ _ _ divides.ne', div_left_inj' divides.ne']
    exact_mod_cast Nat.div_add_mod' total divisor
  have small : ((total % divisor : Nat) : Rat) / divisor < 1 := by
    rw [div_lt_one divides]
    exact_mod_cast Nat.mod_lt total positive
  rw [accuracyOfFraction, whole]
  generalize total % divisor = rest at small
  split
  case isTrue vanished =>
    rw [vanished, Nat.cast_zero, zero_div, add_zero]
    exact rfl
  case isFalse left =>
    have above : (0 : Rat) < rest / divisor := div_pos (by exact_mod_cast Nat.pos_of_ne_zero left) divides
    rcases Nat.lt_trichotomy (2 * rest) divisor with less | same | more
    · have half : 2 * (rest / divisor : Rat) < 1 := by
        rw [← mul_div_assoc, div_lt_one divides]
        exact_mod_cast less
      rw [Nat.compare_eq_lt.2 less]
      exact ⟨by linarith, by linarith⟩
    · have half : 2 * (rest / divisor : Rat) = 1 := by
        rw [← mul_div_assoc, div_eq_one_iff_eq divides.ne']
        exact_mod_cast same
      rw [Nat.compare_eq_eq.2 same]
      show 2 * _ = (_ : Rat)
      linarith
    · have half : 1 < 2 * (rest / divisor : Rat) := by
        rw [← mul_div_assoc, one_lt_div divides]
        exact_mod_cast more
      rw [Nat.compare_eq_gt.2 more]
      exact ⟨by linarith, by linarith⟩

section Division

variable {mantissa mantissa' : Nat} {exponent exponent' : Int}

/-- The exponent of a quotient before it is rounded. -/
def quotientExponent (mantissa : Nat) (exponent : Int) (mantissa' : Nat) (exponent' : Int) : Int :=
  min (exponent - exponent') (max (mantissa.log2 + exponent - (mantissa'.log2 + exponent') - 53) (-1074))

theorem divCore_eq :
    divCore .binary64 mantissa exponent mantissa' exponent'
      = let scale := quotientExponent mantissa exponent mantissa' exponent'
        let total := mantissa * 2 ^ (exponent - exponent' - scale).toNat
        (total / mantissa', scale, accuracyOfFraction (total % mantissa') mantissa') := by
  have target : Format.binary64.targetExponent (totalExponent mantissa exponent - totalExponent mantissa' exponent')
      = max (mantissa.log2 + exponent - (mantissa'.log2 + exponent') - 53) (-1074) := by
    show max ((mantissa.log2 + 1 + exponent - (mantissa'.log2 + 1 + exponent') : Int) - 53) (-1074) = _
    congr 1
    omega
  rw [divCore, target]
  simp only [Nat.shiftLeft_eq]
  rfl

/-- Two positive numbers are divided far enough for all digits of the quotient. -/
theorem fine_quotient (positive : 0 < mantissa) (positive' : 0 < mantissa') :
    Fine (mantissa * 2 ^ (exponent - exponent' - quotientExponent mantissa exponent mantissa' exponent').toNat
      / mantissa') (quotientExponent mantissa exponent mantissa' exponent') := by
  generalize scale_eq : quotientExponent mantissa exponent mantissa' exponent' = scale
  generalize count_eq : (exponent - exponent' - scale).toNat = count
  unfold quotientExponent at scale_eq
  by_cases least : scale ≤ -1074
  · refine ⟨?_, fun _ => by omega⟩
    unfold unit
    omega
  have full : 2 ^ 52 ≤ mantissa * 2 ^ count / mantissa' := by
    rw [Nat.le_div_iff_mul_le positive']
    calc 2 ^ 52 * mantissa'
      _ ≤ 2 ^ 52 * 2 ^ (mantissa'.log2 + 1) := Nat.mul_le_mul_left _ Nat.lt_log2_self.le
      _ = 2 ^ (52 + (mantissa'.log2 + 1)) := (Nat.pow_add _ _ _).symm
      _ ≤ 2 ^ (mantissa.log2 + count) := Nat.pow_le_pow_right (by omega) (by omega)
      _ = 2 ^ mantissa.log2 * 2 ^ count := Nat.pow_add _ _ _
      _ ≤ mantissa * 2 ^ count := Nat.mul_le_mul_right _ (Nat.log2_self_le (Nat.ne_of_gt positive))
  have digits := (Nat.le_log2 (by omega)).2 full
  refine ⟨?_, by omega⟩
  unfold unit
  omega

end Division

/-- The quotient of numbers that are not negative is rounded to the nearest place. -/
theorem nearest_div {x y : Float} (low : 0 ≤ orderKey x) (high : orderKey x < infinite) (low' : 0 < orderKey y)
    (high' : orderKey y < infinite) :
    ∃ k, Nearest (magnitude (orderKey x) / magnitude (orderKey y)) k ∧ orderKey (x / y) = min k infinite := by
  have first := placed_unpack x
  have second := placed_unpack y
  show ∃ k, _ ∧ orderKey (.ofModel (.pack (.div .binary64 x.toModel.unpack y.toModel.unpack))) = _
  generalize x.toModel.unpack = u at first
  generalize y.toModel.unpack = v at second
  generalize orderKey x = k at first low high
  generalize orderKey y = l at second low' high'
  rcases second.of_nonneg low'.le high'.le with ⟨rfl, rfl⟩ | ⟨rfl, rfl⟩
    | ⟨mantissa', exponent', positive', rfl, canonical', rfl⟩
  · exact absurd high' (Int.lt_irrefl _)
  · exact absurd low' (Int.lt_irrefl _)
  rcases first.of_nonneg low high.le with ⟨rfl, rfl⟩ | ⟨rfl, rfl⟩
    | ⟨mantissa, exponent, positive, rfl, canonical, rfl⟩
  · exact absurd high (Int.lt_irrefl _)
  · refine ⟨0, ?_, orderKey_pack_zero .positive⟩
    rw [magnitude_zero, zero_div, ← magnitude_zero]
    exact nearest_magnitude 0
  · rw [magnitude_place canonical.low (.inl canonical), magnitude_place canonical'.low (.inl canonical')]
    have below : quotientExponent mantissa exponent mantissa' exponent' ≤ exponent - exponent' := Int.min_le_left _ _
    have same : (mantissa * 2 ^ exponent : Rat) / (mantissa' * 2 ^ exponent')
        = (mantissa * 2 ^ (exponent - exponent' - quotientExponent mantissa exponent mantissa' exponent').toNat : Nat)
          / mantissa' * 2 ^ quotientExponent mantissa exponent mantissa' exponent' := by
      rw [div_mul_eq_mul_div, Nat.cast_mul, Nat.cast_pow, Nat.cast_two, mul_two_pow_mul below, zpow_sub₀ (by norm_num)]
      field_simp
    rw [UnpackedFloat.div, divCore_eq, same]
    exact orderKey_roundWithAccuracy (represents_div _ positive') (fine_quotient positive positive')

/-! ## Fractions -/

section Fractions

variable {part part' whole n : Nat}

/-- The double of a word is finite. -/
theorem nearest_word (word : n < wordValues) :
    Nearest n (orderKey (Float.ofNat n)) ∧ 0 ≤ orderKey (Float.ofNat n) ∧ orderKey (Float.ofNat n) < infinite := by
  rcases Nat.eq_zero_or_pos n with rfl | positive
  · have zero : orderKey (Float.ofNat 0) = 0 := by decide +kernel
    rw [zero, Nat.cast_zero]
    exact ⟨magnitude_zero ▸ nearest_magnitude 0, le_rfl, by decide⟩
  · obtain ⟨k, near, same⟩ := nearest_ofNat n
    obtain ⟨low, high⟩ := near.word_bounds positive word
    rw [Int.min_eq_left high.le] at same
    exact ⟨same ▸ near, same ▸ low.le, same ▸ high⟩

theorem orderKey_ofNat_le (less : part ≤ whole) (word : whole < wordValues) :
    orderKey (Float.ofNat part) ≤ orderKey (Float.ofNat whole) :=
  (nearest_word (Nat.lt_of_le_of_lt less word)).1.le_of_le (nearest_word word).1 (by exact_mod_cast less)

theorem orderKey_ofNat_pos (positive : 0 < n) (word : n < wordValues) : 0 < orderKey (Float.ofNat n) := by
  obtain ⟨near, -, -⟩ := nearest_word word
  exact (near.word_bounds positive word).1

/-- A fraction is rounded to the nearest place. -/
theorem nearest_fraction (positive : 0 < whole) (word : whole < wordValues) (less : part ≤ whole) :
    Nearest (magnitude (orderKey (Float.ofNat part)) / magnitude (orderKey (Float.ofNat whole)))
      (orderKey (Scalar.fraction part whole : Float)) := by
  obtain ⟨-, low, high⟩ := nearest_word (Nat.lt_of_le_of_lt less word)
  obtain ⟨-, -, high'⟩ := nearest_word word
  have low' := orderKey_ofNat_pos positive word
  obtain ⟨k, near, same⟩ := nearest_div low high low' high'
  have above := magnitude_pos low'
  have most := near.le_of_le (nearest_magnitude (place 4503599627370496 (-52))) (by
    rw [magnitude_one, div_le_one above]
    exact magnitude_strictMono.monotone (orderKey_ofNat_le less word))
  have finite : k ≤ infinite := by
    unfold place at most
    unfold infinite
    omega
  show Nearest _ (orderKey (Float.ofNat part / Float.ofNat whole))
  rwa [same, Int.min_eq_left finite]

theorem orderKey_fraction_le (positive : 0 < whole) (word : whole < wordValues) (less : part ≤ part')
    (within : part' ≤ whole) :
    orderKey (Scalar.fraction part whole : Float) ≤ orderKey (Scalar.fraction part' whole : Float) := by
  refine (nearest_fraction positive word (Nat.le_trans less within)).le_of_le (nearest_fraction positive word within) ?_
  have above := magnitude_pos (orderKey_ofNat_pos positive word)
  rw [div_le_div_iff_of_pos_right above]
  exact magnitude_strictMono.monotone (orderKey_ofNat_le less (Nat.lt_of_le_of_lt within word))

/-- The whole is the fraction one of itself. -/
theorem fraction_self (positive : 0 < whole) (word : whole < wordValues) :
    (Scalar.fraction whole whole : Float) = Scalar.one := by
  have own := nearest_fraction positive word le_rfl
  have one := (nearest_word (n := 1) (by decide)).1
  rw [div_self (magnitude_pos (orderKey_ofNat_pos positive word)).ne'] at own
  rw [Nat.cast_one] at one
  exact orderKey_injective (own.unique one)

theorem orderKey_fraction_bounds (positive : 0 < whole) (word : whole < wordValues) (less : part ≤ whole) :
    0 ≤ orderKey (Scalar.fraction part whole : Float) ∧ orderKey (Scalar.fraction part whole : Float) ≤ infinite := by
  have low := magnitude_nonneg (nearest_word (Nat.lt_of_le_of_lt less word)).2.1
  have above := magnitude_pos (orderKey_ofNat_pos positive word)
  have one : orderKey (Scalar.one : Float) < infinite := (nearest_word (n := 1) (by decide)).2.2
  have most := orderKey_fraction_le positive word less le_rfl
  rw [fraction_self positive word] at most
  exact ⟨(nearest_magnitude 0).le_of_le (nearest_fraction positive word less)
    (magnitude_zero ▸ div_nonneg low above.le), Int.le_trans most one.le⟩

end Fractions

end NetworkAnalysis.Double
