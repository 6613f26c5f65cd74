import NetworkAnalysis.Proofs.Double.Addition

/-!
# Correct rounding of doubles

Every place in the order of doubles is that of a number (`magnitude`), where places above the largest double
go on as if exponents had no end. An exact result is rounded to the nearest of these numbers, and to the one
of an even place when it lies halfway between two (`Nearest`). Of two exact results the larger one is not
rounded to a smaller number (`Nearest.le_of_le`), which makes sums, quotients and the doubles of counts
monotone.
-/

open Float.Model Float.Model.UnpackedFloat

namespace NetworkAnalysis.Double

/-! ## The number at a place -/

/-- The number at a place. -/
def magnitude (k : Int) : Rat :=
  if k < 4503599627370496 then k * 2 ^ (-1074 : Int)
  else (4503599627370496 + k % 4503599627370496 : Int) * 2 ^ (k / 4503599627370496 - 1075 : Int)

theorem magnitude_place {mantissa : Nat} {exponent : Int} (low : -1074 ≤ exponent)
    (fits : Canonical mantissa exponent ∨ mantissa = 9007199254740992) :
    magnitude (place mantissa exponent) = mantissa * 2 ^ exponent := by
  rcases fits with ⟨short, -, normal⟩ | rfl
  · by_cases full : 4503599627370496 ≤ mantissa
    · have same : 4503599627370496 + place mantissa exponent % 4503599627370496 = mantissa := by
        unfold place
        omega
      have scale : place mantissa exponent / 4503599627370496 - 1075 = exponent := by
        unfold place
        omega
      rw [magnitude, if_neg (by unfold place; omega), same, scale, Int.cast_natCast]
    · obtain rfl := normal (by omega)
      have same : place mantissa (-1074) = mantissa := by
        unfold place
        omega
      rw [same, magnitude, if_pos (by omega), Int.cast_natCast]
  · have same : 4503599627370496 + place 9007199254740992 exponent % 4503599627370496 = 4503599627370496 := by
      unfold place
      omega
    have scale : place 9007199254740992 exponent / 4503599627370496 - 1075 = exponent + 1 := by
      unfold place
      omega
    rw [magnitude, if_neg (by unfold place; omega), same, scale, zpow_add_one₀ (by norm_num)]
    push_cast
    ring

/-- From a place that is not negative the mantissa and the exponent can be read off. -/
theorem exists_place {k : Int} (low : 0 ≤ k) :
    ∃ mantissa exponent, Canonical mantissa exponent ∧ place mantissa exponent = k := by
  by_cases normal : k < 4503599627370496
  · refine ⟨k.toNat, -1074, ⟨by omega, Int.le_refl _, fun _ => rfl⟩, ?_⟩
    unfold place
    omega
  · refine ⟨(4503599627370496 + k % 4503599627370496).toNat, k / 4503599627370496 - 1075,
      ⟨by omega, by omega, by omega⟩, ?_⟩
    unfold place
    omega

/-- The next place is that of the next mantissa. -/
theorem magnitude_place_add_one {mantissa : Nat} {exponent : Int} (canonical : Canonical mantissa exponent) :
    magnitude (place mantissa exponent + 1) = (mantissa + 1) * 2 ^ exponent := by
  have fits : Canonical (mantissa + 1) exponent ∨ mantissa + 1 = 9007199254740992 :=
    canonical.of_rounded ⟨Nat.le_succ _, Nat.le_refl _⟩
  have next : place mantissa exponent + 1 = place (mantissa + 1) exponent := by
    unfold place
    omega
  rw [next, magnitude_place canonical.low fits, Nat.cast_succ]

theorem magnitude_strictMono : StrictMono magnitude := by
  refine strictMono_int_of_lt_succ fun k => ?_
  by_cases low : 0 ≤ k
  · obtain ⟨mantissa, exponent, canonical, rfl⟩ := exists_place low
    rw [magnitude_place_add_one canonical, magnitude_place canonical.low (.inl canonical)]
    exact mul_lt_mul_of_pos_right (by linarith) (by positivity)
  · rw [magnitude, magnitude, if_pos (by omega), if_pos (by omega)]
    exact mul_lt_mul_of_pos_right (by push_cast; linarith) (by positivity)

@[simp]
theorem magnitude_zero : magnitude 0 = 0 := by
  rw [magnitude, if_pos (by decide), Int.cast_zero, zero_mul]

theorem magnitude_nonneg {k : Int} (low : 0 ≤ k) : 0 ≤ magnitude k :=
  magnitude_zero ▸ magnitude_strictMono.monotone low

theorem magnitude_pos {k : Int} (positive : 0 < k) : 0 < magnitude k :=
  magnitude_zero ▸ magnitude_strictMono positive

/-! ## Rounding to the nearest place -/

/-- A place whose number is nearest to an exact one, and an even place where two are equally near. -/
structure Nearest (exact : Rat) (k : Int) : Prop where
  below : magnitude (k - 1) + magnitude k ≤ 2 * exact
  below_even : magnitude (k - 1) + magnitude k = 2 * exact → k % 2 = 0
  above : 2 * exact ≤ magnitude k + magnitude (k + 1)
  above_even : 2 * exact = magnitude k + magnitude (k + 1) → k % 2 = 0

theorem Nearest.le_of_le {exact exact' : Rat} {k k' : Int} (first : Nearest exact k) (second : Nearest exact' k')
    (less : exact ≤ exact') : k ≤ k' := by
  by_contra more
  have low : magnitude k' ≤ magnitude (k - 1) := magnitude_strictMono.monotone (by omega)
  have high : magnitude (k' + 1) ≤ magnitude k := magnitude_strictMono.monotone (by omega)
  -- Both exact numbers lie halfway between two neighbours, of which one is odd.
  have := first.below
  have := second.above
  have next : k' + 1 = k := magnitude_strictMono.injective (by linarith)
  have even := first.below_even (by linarith)
  have even' := second.above_even (by linarith)
  omega

theorem Nearest.unique {exact : Rat} {k k' : Int} (first : Nearest exact k) (second : Nearest exact k') : k = k' :=
  Int.le_antisymm (first.le_of_le second le_rfl) (second.le_of_le first le_rfl)

/-- What is a number at a place already is rounded to itself. -/
theorem nearest_magnitude (k : Int) : Nearest (magnitude k) k := by
  have low : magnitude (k - 1) < magnitude k := magnitude_strictMono (by omega)
  have high : magnitude k < magnitude (k + 1) := magnitude_strictMono (by omega)
  exact ⟨by linarith, fun same => by linarith, by linarith, fun same => by linarith⟩

section Neighbours

variable {mantissa : Nat} {exponent : Int} {x : Rat}

/-- Up to half a unit above a number, that number is the nearest. -/
theorem nearest_place (canonical : Canonical mantissa exponent) (low : mantissa ≤ x)
    (high : 2 * x ≤ 2 * mantissa + 1) (even : 2 * x = 2 * mantissa + 1 → mantissa % 2 = 0) :
    Nearest (x * 2 ^ exponent) (place mantissa exponent) := by
  have unit : (0 : Rat) < 2 ^ exponent := by positivity
  have own : magnitude (place mantissa exponent) = mantissa * 2 ^ exponent :=
    magnitude_place canonical.low (.inl canonical)
  have ahead : magnitude (place mantissa exponent - 1) < magnitude (place mantissa exponent) :=
    magnitude_strictMono (by omega)
  have least := mul_le_mul_of_nonneg_right low unit.le
  have halfway : magnitude (place mantissa exponent) + magnitude (place mantissa exponent + 1)
      = (2 * mantissa + 1) * 2 ^ exponent := by
    rw [own, magnitude_place_add_one canonical]
    ring
  refine ⟨by linarith, fun same => by linarith, ?above, fun same => ?above_even⟩
  case above =>
    rw [halfway, ← mul_assoc]
    exact mul_le_mul_of_nonneg_right high unit.le
  case above_even =>
    rw [halfway, ← mul_assoc] at same
    have := even (mul_right_cancel₀ unit.ne' same)
    unfold place
    omega

/-- From half a unit above a number on, the next one is the nearest. -/
theorem nearest_place_add_one (canonical : Canonical mantissa exponent) (low : 2 * mantissa + 1 ≤ 2 * x)
    (odd : 2 * x = 2 * mantissa + 1 → mantissa % 2 = 1) (high : x ≤ mantissa + 1) :
    Nearest (x * 2 ^ exponent) (place (mantissa + 1) exponent) := by
  have unit : (0 : Rat) < 2 ^ exponent := by positivity
  have next : place (mantissa + 1) exponent = place mantissa exponent + 1 := by
    unfold place
    omega
  have own : magnitude (place mantissa exponent) = mantissa * 2 ^ exponent :=
    magnitude_place canonical.low (.inl canonical)
  have above := magnitude_place_add_one canonical
  have beyond : magnitude (place mantissa exponent + 1) < magnitude (place mantissa exponent + 1 + 1) :=
    magnitude_strictMono (by omega)
  have most := mul_le_mul_of_nonneg_right high unit.le
  have halfway : magnitude (place mantissa exponent) + magnitude (place mantissa exponent + 1)
      = (2 * mantissa + 1) * 2 ^ exponent := by
    rw [own, above]
    ring
  rw [next]
  refine ⟨?below, fun same => ?below_even, by linarith, fun same => by linarith⟩
  case below =>
    rw [Int.add_sub_cancel, halfway, ← mul_assoc]
    exact mul_le_mul_of_nonneg_right low unit.le
  case below_even =>
    rw [Int.add_sub_cancel, halfway, ← mul_assoc] at same
    have := odd (mul_right_cancel₀ unit.ne' same).symm
    unfold place
    omega

end Neighbours

/-! ## What rounding does -/

/-- A mantissa and what is known about the digits behind it stand for a number of units. -/
def Represents (mantissa : Nat) : Accuracy → Rat → Prop
  | .exact, x => x = mantissa
  | .inexact .lt, x => mantissa < x ∧ 2 * x < 2 * mantissa + 1
  | .inexact .eq, x => 2 * x = 2 * mantissa + 1
  | .inexact .gt, x => 2 * mantissa + 1 < 2 * x ∧ x < mantissa + 1

theorem Represents.nearest {mantissa : Nat} {exponent : Int} {accuracy : Accuracy} {x : Rat}
    (stands : Represents mantissa accuracy x) (canonical : Canonical mantissa exponent) :
    Nearest (x * 2 ^ exponent) (place (accuracy.roundToNearestEven mantissa) exponent) := by
  rcases accuracy with _ | _ | _ | _
  case exact =>
    obtain rfl : x = mantissa := stands
    show Nearest _ (place mantissa exponent)
    exact nearest_place canonical le_rfl (by linarith) fun same => by linarith
  case inexact.lt =>
    exact nearest_place canonical stands.1.le stands.2.le fun same => absurd same stands.2.ne
  case inexact.gt =>
    exact nearest_place_add_one canonical stands.1.le (fun same => absurd same stands.1.ne') stands.2.le
  case inexact.eq =>
    have half : 2 * x = 2 * mantissa + 1 := stands
    rcases Nat.mod_two_eq_zero_or_one mantissa with even | odd
    · rw [Accuracy.roundToNearestEven, even, Nat.add_zero]
      exact nearest_place canonical (by linarith) half.le fun _ => even
    · rw [Accuracy.roundToNearestEven, odd]
      exact nearest_place_add_one canonical half.ge (fun _ => odd) (by linarith)

theorem represents_ofMantissaAndAccuracy {mantissa : Nat} {accuracy : Accuracy} {x : Rat}
    (stands : Represents mantissa accuracy x) :
    Represents (ExtendedMantissa.ofMantissaAndAccuracy mantissa accuracy).mantissa
      (ExtendedMantissa.ofMantissaAndAccuracy mantissa accuracy).accuracy x := by
  rcases accuracy with _ | _ | _ | _ <;> exact stands

/-- The digit that is shifted out becomes the first of those behind. -/
theorem represents_shiftRightOne {m : ExtendedMantissa} {x : Rat} (stands : Represents m.mantissa m.accuracy x) :
    Represents m.shiftRightOne.mantissa m.shiftRightOne.accuracy (x / 2) := by
  obtain ⟨mantissa, round, sticky⟩ := m
  obtain ⟨half, rfl | rfl⟩ := Nat.even_or_odd' mantissa
  · have digit : (2 * half % 2 != 0) = false := by simp
    have rest : 2 * half / 2 = half := by omega
    rw [ExtendedMantissa.shiftRightOne]
    dsimp only
    rw [digit, rest]
    cases round <;> cases sticky <;> simp [Represents, ExtendedMantissa.accuracy] at stands ⊢ <;> grind
  · have digit : ((2 * half + 1) % 2 != 0) = true := by simp
    have rest : (2 * half + 1) / 2 = half := by omega
    rw [ExtendedMantissa.shiftRightOne]
    dsimp only
    rw [digit, rest]
    cases round <;> cases sticky <;> simp [Represents, ExtendedMantissa.accuracy] at stands ⊢ <;> grind

theorem represents_shiftRight {m : ExtendedMantissa} {x : Rat} (stands : Represents m.mantissa m.accuracy x)
    (count : Nat) : Represents (m >>> count).mantissa (m >>> count).accuracy (x / 2 ^ count) := by
  induction count with
  | zero => rwa [pow_zero, div_one]
  | succ count ih =>
    rw [pow_succ, ← div_div]
    exact represents_shiftRightOne ih

/-- The exponent at which a number is written is not below its own, unless there is nothing to write. -/
structure Fine (mantissa : Nat) (exponent : Int) : Prop where
  low : exponent ≤ unit mantissa exponent
  zero : mantissa = 0 → exponent ≤ -1022

theorem Fine.canonical_truncate {mantissa : Nat} {exponent : Int} (fine : Fine mantissa exponent) :
    Canonical (truncate mantissa exponent) (unit mantissa exponent) := by
  rcases Nat.eq_zero_or_pos mantissa with rfl | positive
  · have least : unit 0 exponent = -1074 := by
      have := fine.zero rfl
      unfold unit
      rw [Nat.log2_zero]
      omega
    rw [least, truncate, Nat.zero_div]
    exact ⟨by omega, le_rfl, fun _ => rfl⟩
  · exact Double.canonical_truncate positive fine.low

theorem mantissa_ofMantissaAndAccuracy (mantissa : Nat) (accuracy : Accuracy) :
    (ExtendedMantissa.ofMantissaAndAccuracy mantissa accuracy).mantissa = mantissa := by
  rcases accuracy with _ | _ | _ | _ <;> rfl

theorem shiftToTargetExponent_spec {mantissa : Nat} {exponent : Int} {accuracy : Accuracy} {x : Rat}
    (stands : Represents mantissa accuracy x) (low : exponent ≤ unit mantissa exponent) :
    ∃ shifted y, shiftToTargetExponent .binary64 mantissa exponent accuracy = (shifted, unit mantissa exponent)
      ∧ shifted.mantissa = truncate mantissa exponent ∧ Represents shifted.mantissa shifted.accuracy y
      ∧ y * 2 ^ unit mantissa exponent = x * 2 ^ exponent := by
  have reached : exponent + ((unit mantissa exponent - exponent).toNat : Int) = unit mantissa exponent := by omega
  refine ⟨_, _, ?shift, ?digits,
    represents_shiftRight (represents_ofMantissaAndAccuracy stands) (unit mantissa exponent - exponent).toNat, ?same⟩
  case shift =>
    rw [shiftToTargetExponent, targetExponent_eq, shiftToExponent, reached]
  case digits => rw [mantissa_shiftRight, mantissa_ofMantissaAndAccuracy, truncate]
  case same =>
    nth_rewrite 2 [← reached]
    rw [zpow_add₀ (by norm_num), zpow_natCast]
    field_simp

/-- What is rounded with its accuracy goes to the nearest place, or to infinity where there are no doubles any
more. -/
theorem orderKey_roundWithAccuracy {mantissa : Nat} {exponent : Int} {accuracy : Accuracy} {x : Rat}
    (stands : Represents mantissa accuracy x) (fine : Fine mantissa exponent) :
    ∃ k, Nearest (x * 2 ^ exponent) k
      ∧ orderKey (.ofModel (.pack (roundWithAccuracy .binary64 .positive mantissa exponent accuracy)))
        = min k infinite := by
  have cut := fine.canonical_truncate
  obtain ⟨extended, y, first, digits, stands', same⟩ := shiftToTargetExponent_spec stands fine.low
  rw [← digits] at cut
  have bounds := roundedMantissa_bounds extended
  have near : Nearest (x * 2 ^ exponent) (place extended.roundedMantissa (unit mantissa exponent)) :=
    same ▸ stands'.nearest cut
  -- Rounding may carry into one more digit, which the second shift takes away again.
  obtain ⟨farther, stays⟩ := place_truncate cut.low (cut.of_rounded bounds)
  have fine' : Fine extended.roundedMantissa (unit mantissa exponent) :=
    ⟨farther, fun zero => by
      have := cut.normal (by omega)
      omega⟩
  have canonical := fine'.canonical_truncate
  have whole : Represents extended.roundedMantissa .exact extended.roundedMantissa := rfl
  obtain ⟨last, -, second, digits', -, -⟩ := shiftToTargetExponent_spec whole farther
  rw [← digits'] at canonical stays
  refine ⟨_, near, ?_⟩
  rw [roundWithAccuracy, first]
  dsimp only
  rw [second]
  dsimp only
  split
  case isTrue vanished =>
    have := canonical.normal (by omega)
    have zero : place extended.roundedMantissa (unit mantissa exponent) = 0 := by
      rw [← stays, vanished]
      unfold place
      omega
    rw [orderKey_pack_zero, zero]
    rfl
  case isFalse left => rw [orderKey_pack_finite .positive canonical, stays, signed]

/-- A number written with a smaller exponent. -/
theorem mul_two_pow_mul {mantissa : Nat} {exponent scale : Int} (low : scale ≤ exponent) :
    (mantissa * 2 ^ (exponent - scale).toNat : Rat) * 2 ^ scale = mantissa * 2 ^ exponent := by
  have parts : ((exponent - scale).toNat : Int) + scale = exponent := by omega
  rw [mul_assoc, ← zpow_natCast, ← zpow_add₀ (by norm_num), parts]

/-- A number goes to the nearest place when it is written with enough digits. -/
theorem orderKey_padded {mantissa : Nat} {exponent : Int} (count : Nat) (positive : 0 < mantissa)
    (enough : exponent - count ≤ unit mantissa exponent) :
    ∃ k, Nearest (mantissa * 2 ^ exponent) k
      ∧ orderKey (.ofModel (.pack
        (roundWithAccuracy .binary64 .positive (mantissa * 2 ^ count) (exponent - count) .exact)))
        = min k infinite := by
  have shifted : 0 < mantissa * 2 ^ count := Nat.mul_pos positive (Nat.two_pow_pos _)
  have same : ((mantissa * 2 ^ count : Nat) : Rat) * 2 ^ (exponent - count) = mantissa * 2 ^ exponent := by
    rw [← mul_two_pow_mul (show exponent - count ≤ exponent by omega)]
    push_cast
    rw [show (exponent - (exponent - count)).toNat = count by omega]
  have digits : (mantissa * 2 ^ count).log2 = mantissa.log2 + count := by
    have top : 2 ^ mantissa.log2 ≤ mantissa ∧ mantissa < 2 ^ (mantissa.log2 + 1) :=
      (Nat.log2_eq_iff (Nat.ne_of_gt positive)).1 rfl
    refine (Nat.log2_eq_iff (Nat.ne_of_gt shifted)).2 ⟨?_, ?_⟩
    · rw [Nat.pow_add]
      exact Nat.mul_le_mul_right _ top.1
    · rw [show mantissa.log2 + count + 1 = mantissa.log2 + 1 + count by omega, Nat.pow_add]
      exact Nat.mul_lt_mul_of_pos_right top.2 (Nat.two_pow_pos _)
  have fine : Fine (mantissa * 2 ^ count) (exponent - count) := by
    refine ⟨?_, by omega⟩
    rw [unit, digits]
    unfold unit at enough
    omega
  rw [← same]
  exact orderKey_roundWithAccuracy rfl fine

/-- A number with any exponent goes to the nearest place. -/
theorem orderKey_round {mantissa : Nat} {exponent : Int} (positive : 0 < mantissa) :
    ∃ k, Nearest (mantissa * 2 ^ exponent) k
      ∧ orderKey (.ofModel (.pack (.round .binary64 .positive mantissa exponent))) = min k infinite := by
  rw [UnpackedFloat.round, targetExponent_eq, decreaseExponent]
  dsimp only
  rw [Nat.shiftLeft_eq]
  exact orderKey_padded _ positive (by omega)

/-! ## Sums -/

/-- The sum of two numbers that are not negative is rounded to the nearest place. -/
theorem nearest_add {x y : Float} (low : 0 ≤ orderKey x) (high : orderKey x < infinite) (low' : -1 ≤ orderKey y)
    (high' : orderKey y < infinite) :
    ∃ k, Nearest (magnitude (orderKey x) + magnitude (max 0 (orderKey y))) k
      ∧ orderKey (x + y) = min k infinite := by
  have first := placed_unpack x
  have second := placed_unpack y
  rw [add_eq]
  generalize x.toModel.unpack = u at first
  generalize y.toModel.unpack = v at second
  generalize orderKey x = k at first low high
  generalize orderKey y = l at second low' high'
  have stays : ∀ {w m}, Placed w m → m ≤ infinite →
      ∃ k, Nearest (magnitude m) k ∧ orderKey (.ofModel (.pack w)) = min k infinite := by
    intro w m placed number
    exact ⟨m, nearest_magnitude m, by rw [orderKey_pack placed number, Int.min_eq_left number]⟩
  by_cases negative : l = -1
  -- Negative zero changes nothing.
  · subst negative
    obtain rfl := second.eq_zero_of_neg_one
    rw [show max 0 (-1) = (0 : Int) from rfl, magnitude_zero, add_zero]
    rcases first.of_nonneg low high.le with ⟨rfl, rfl⟩ | ⟨rfl, rfl⟩ | ⟨_, _, _, rfl, _, rfl⟩ <;>
      exact stays first high.le
  have low'' : 0 ≤ l := by omega
  rw [Int.max_eq_right low'']
  rcases first.of_nonneg low high.le with ⟨rfl, rfl⟩ | ⟨rfl, rfl⟩
    | ⟨mantissa, exponent, positive, rfl, canonical, rfl⟩
  · exact absurd high (Int.lt_irrefl _)
  · rw [magnitude_zero, zero_add]
    rcases second.of_nonneg low'' high'.le with ⟨rfl, rfl⟩ | ⟨rfl, rfl⟩ | ⟨_, _, _, rfl, _, rfl⟩ <;>
      exact stays second high'.le
  · rcases second.of_nonneg low'' high'.le with ⟨rfl, rfl⟩ | ⟨rfl, rfl⟩
      | ⟨mantissa', exponent', _, rfl, canonical', rfl⟩
    · exact absurd high' (Int.lt_irrefl _)
    · rw [magnitude_zero, add_zero]
      exact stays first high.le
    · rw [magnitude_place canonical.low (.inl canonical), magnitude_place canonical'.low (.inl canonical'), add_finite]
      have shifted : 0 < mantissa * 2 ^ (exponent - min exponent exponent').toNat :=
        Nat.mul_pos positive (Nat.two_pow_pos _)
      rw [← mul_two_pow_mul (Int.min_le_left exponent exponent'),
        ← mul_two_pow_mul (Int.min_le_right exponent exponent'), ← add_mul]
      exact_mod_cast orderKey_round (Nat.add_pos_left shifted _)

/-- A sum does not get smaller when one of its parts gets larger. -/
theorem orderKey_add_le_add {x x' y : Float} (low : 0 ≤ orderKey x) (less : orderKey x ≤ orderKey x')
    (high : orderKey x' ≤ infinite) (low' : -1 ≤ orderKey y) (high' : orderKey y ≤ infinite) :
    orderKey (x + y) ≤ orderKey (x' + y) := by
  have within := (orderKey_add low (Int.le_trans less high) low' high').2.2
  obtain ⟨above, above', -⟩ := orderKey_add (Int.le_trans low less) high low' high'
  by_cases finite : orderKey x' < infinite ∧ orderKey y < infinite
  · obtain ⟨k, near, same⟩ := nearest_add low (Int.lt_of_le_of_lt less finite.1) low' finite.2
    obtain ⟨k', near', same'⟩ := nearest_add (Int.le_trans low less) finite.1 low' finite.2
    have := near.le_of_le near' (add_le_add_left (magnitude_strictMono.monotone less) _)
    omega
  · omega

end NetworkAnalysis.Double
