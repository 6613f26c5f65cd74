import NetworkAnalysis.Proofs.Double.Order

/-!
# Sums of doubles

A sum is rounded to 53 bits. What is cut off may carry into the bits that stay, but it never takes anything
from them (`round_spec`), and a number that does not exceed the exact sum is not above it when the last bits
are cut off either (`place_le_truncate`). So the sum of numbers that are not negative is not below either of
them, although it may be equal to one or be infinite (`orderKey_add`).
-/

open Float.Model Float.Model.UnpackedFloat

namespace NetworkAnalysis.Double

/-! ## Packing -/

/-- The key of a double whose bit pattern is put together from its fields. -/
theorem orderKey_pack_of_eq {u : UnpackedFloat} {sign : Sign} {exponent : BitVec 11} {mantissa : BitVec 52}
    (packed : UnpackedFloat.pack .binary64 u = packComponents .binary64 sign exponent mantissa) :
    orderKey (.ofModel (.pack u)) = signed sign (exponent.toNat * 4503599627370496 + mantissa.toNat) := by
  have itsSign : Sign.ofBitVec (unpackSign (packComponents .binary64 sign exponent mantissa)) = sign := by
    simp only [unpackSign, packComponents, BitVec.extractLsb]
    rw [BitVec.extractLsb'_append_eq_of_le (by omega), BitVec.extractLsb'_append_eq_of_le (by omega)]
    cases sign <;> rfl
  rw [orderKey_eq]
  show signed (Sign.ofBitVec (unpackSign (UnpackedFloat.pack .binary64 u)))
    ((unpackExponent (UnpackedFloat.pack .binary64 u)).toNat * 4503599627370496
      + (unpackMantissa (UnpackedFloat.pack .binary64 u)).toNat) = _
  rw [packed, itsSign, unpackExponent_packComponents, unpackMantissa_packComponents]

theorem orderKey_pack_notANumber : infinite < orderKey (.ofModel (.pack .notANumber)) :=
  (orderKey_pack_of_eq (u := .notANumber) rfl).symm ▸ by decide

theorem orderKey_pack_infinity (sign : Sign) : orderKey (.ofModel (.pack (.infinity sign))) = signed sign infinite :=
  orderKey_pack_of_eq
    (show UnpackedFloat.pack .binary64 (.infinity sign) = packComponents .binary64 sign (-1) 0 from rfl)

theorem orderKey_pack_zero (sign : Sign) : orderKey (.ofModel (.pack (.zero sign))) = signed sign 0 :=
  orderKey_pack_of_eq
    (show UnpackedFloat.pack .binary64 (.zero sign) = packComponents .binary64 sign 0 0 from rfl)

theorem log2_of_normal {mantissa : Nat} (full : 4503599627370496 ≤ mantissa) (short : mantissa < 9007199254740992) :
    mantissa.log2 = 52 := by
  have low : 52 ≤ mantissa.log2 := (Nat.le_log2 (by omega)).2 full
  have high : mantissa.log2 < 53 := (Nat.log2_lt (by omega)).2 short
  omega

theorem biased_eq (exponent : Int) :
    (exponent + Format.binary64.exponentBias + Format.binary64.mantissaBitsWithoutImplicit).toNat
      = (exponent + 1075).toNat := by
  show (exponent + 1023 + 52).toNat = _
  omega

section Finite

variable (sign : Sign) {mantissa : Nat} {exponent : Int} {positive : 0 < mantissa}

theorem pack_normal (full : 4503599627370496 ≤ mantissa) (short : mantissa < 9007199254740992)
    (high : exponent ≤ 971) :
    UnpackedFloat.pack .binary64 (.finite sign mantissa exponent positive)
      = packComponents .binary64 sign (.ofNat 11 (exponent + 1075).toNat) (.ofNat 52 mantissa) := by
  rw [UnpackedFloat.pack, log2_of_normal full short]
  dsimp only
  rw [biased_eq, if_neg (by omega)]
  exact if_pos rfl

theorem pack_subnormal (part : mantissa < 4503599627370496) (high : exponent ≤ 971) :
    UnpackedFloat.pack .binary64 (.finite sign mantissa exponent positive)
      = packComponents .binary64 sign 0 (.ofNat 52 mantissa) := by
  have few : mantissa.log2 < 52 := (Nat.log2_lt (Nat.ne_of_gt positive)).2 part
  rw [UnpackedFloat.pack]
  dsimp only
  rw [biased_eq, if_neg (by omega), if_neg]
  · rfl
  · show ¬mantissa.log2 + 1 = 53
    omega

theorem pack_overflow (high : 971 < exponent) :
    UnpackedFloat.pack .binary64 (.finite sign mantissa exponent positive) = packComponents .binary64 sign (-1) 0 := by
  rw [UnpackedFloat.pack]
  dsimp only
  rw [biased_eq, if_pos (by omega)]
  rfl

/-- Packing a number gives the double at its place, or an infinity when the number is too large. -/
theorem orderKey_pack_finite (canonical : Canonical mantissa exponent) :
    orderKey (.ofModel (.pack (.finite sign mantissa exponent positive)))
      = signed sign (min (place mantissa exponent) infinite) := by
  have short := canonical.short
  have low := canonical.low
  have normal := canonical.normal
  by_cases high : 971 < exponent
  · rw [orderKey_pack_of_eq (pack_overflow sign high), Int.min_eq_right]
    · rfl
    · unfold place infinite
      omega
  rw [Int.min_eq_left (Int.le_of_lt (canonical.place_bounds positive (by omega)).2)]
  by_cases full : 4503599627370496 ≤ mantissa
  · rw [orderKey_pack_of_eq (pack_normal sign full short (by omega)), BitVec.toNat_ofNat, BitVec.toNat_ofNat]
    congr 1
    unfold place
    omega
  · have least := normal (by omega)
    rw [orderKey_pack_of_eq (pack_subnormal sign (by omega) (by omega)), BitVec.toNat_ofNat]
    congr 1
    show (0 : Int) * _ + _ = _
    unfold place
    omega

end Finite

/-! ## Rounding -/

theorem mantissa_shiftRight (m : ExtendedMantissa) (count : Nat) :
    (m >>> count).mantissa = m.mantissa / 2 ^ count := by
  induction count with
  | zero => exact (Nat.div_one _).symm
  | succ count ih =>
    show (m >>> count).mantissa / 2 = _
    rw [ih, Nat.div_div_eq_div_mul, ← Nat.pow_succ]

theorem roundedMantissa_bounds (m : ExtendedMantissa) :
    m.mantissa ≤ m.roundedMantissa ∧ m.roundedMantissa ≤ m.mantissa + 1 := by
  obtain ⟨mantissa, _ | _, _ | _⟩ := m <;>
    simp only [ExtendedMantissa.roundedMantissa, ExtendedMantissa.accuracy, Accuracy.roundToNearestEven] <;>
    omega

/-- The exponent at which a number is written. -/
def unit (mantissa : Nat) (exponent : Int) : Int :=
  max (mantissa.log2 + exponent - 52) (-1074)

theorem targetExponent_eq (mantissa : Nat) (exponent : Int) :
    Format.binary64.targetExponent (totalExponent mantissa exponent) = unit mantissa exponent := by
  show max ((mantissa.log2 + 1 + exponent : Int) - 53) (-1074) = max _ _
  congr 1
  omega

theorem Canonical.unit_eq {mantissa : Nat} {exponent : Int} (canonical : Canonical mantissa exponent) :
    unit mantissa exponent = exponent := by
  obtain ⟨short, low, normal⟩ := canonical
  unfold unit
  by_cases full : 4503599627370496 ≤ mantissa
  · rw [log2_of_normal full short]
    omega
  · have few : mantissa.log2 ≤ 52 := by
      by_cases zero : mantissa = 0
      · simp [zero]
      · have := (Nat.log2_lt (k := 52) zero).2 (by omega)
        omega
    omega

/-- What is left of a mantissa at the exponent at which its number is written. -/
def truncate (mantissa : Nat) (exponent : Int) : Nat :=
  mantissa / 2 ^ (unit mantissa exponent - exponent).toNat

theorem canonical_truncate {mantissa : Nat} {exponent : Int} (positive : 0 < mantissa)
    (low : exponent ≤ unit mantissa exponent) :
    Canonical (truncate mantissa exponent) (unit mantissa exponent) := by
  have below : mantissa < 2 ^ (mantissa.log2 + 1) := Nat.lt_log2_self
  have above : 2 ^ mantissa.log2 ≤ mantissa := Nat.log2_self_le (Nat.ne_of_gt positive)
  have steps : 0 < 2 ^ (unit mantissa exponent - exponent).toNat := Nat.two_pow_pos _
  refine ⟨?short, Int.le_max_right _ _, fun part => ?normal⟩
  case short =>
    rw [truncate, Nat.div_lt_iff_lt_mul steps]
    calc mantissa
      _ < 2 ^ (mantissa.log2 + 1) := below
      _ ≤ 2 ^ (53 + (unit mantissa exponent - exponent).toNat) := by
        refine Nat.pow_le_pow_right (by omega) ?_
        unfold unit
        omega
      _ = 9007199254740992 * 2 ^ (unit mantissa exponent - exponent).toNat := Nat.pow_add _ _ _
  case normal =>
    by_contra more
    have same : mantissa.log2 = 52 + (unit mantissa exponent - exponent).toNat := by
      unfold unit at more low ⊢
      omega
    rw [truncate, Nat.div_lt_iff_lt_mul steps] at part
    have full : 4503599627370496 * 2 ^ (unit mantissa exponent - exponent).toNat = 2 ^ mantissa.log2 := by
      rw [same, Nat.pow_add]
    omega

theorem shiftToTargetExponent_exact {mantissa : Nat} {exponent : Int} (low : exponent ≤ unit mantissa exponent) :
    (shiftToTargetExponent .binary64 mantissa exponent .exact).1.mantissa = truncate mantissa exponent
      ∧ (shiftToTargetExponent .binary64 mantissa exponent .exact).2 = unit mantissa exponent := by
  rw [shiftToTargetExponent, targetExponent_eq, shiftToExponent]
  dsimp only
  rw [mantissa_shiftRight]
  exact ⟨rfl, by omega⟩

theorem Canonical.of_rounded {mantissa rounded : Nat} {exponent : Int} (canonical : Canonical mantissa exponent)
    (bounds : mantissa ≤ rounded ∧ rounded ≤ mantissa + 1) :
    Canonical rounded exponent ∨ rounded = 9007199254740992 := by
  obtain ⟨short, low, normal⟩ := canonical
  by_cases full : rounded = 9007199254740992
  · exact .inr full
  · exact .inl ⟨by omega, low, fun part => normal (by omega)⟩

/-- A number that was rounded up to 54 bits stays in its place when it is written with 53 bits. -/
theorem place_truncate {mantissa : Nat} {exponent : Int} (low : -1074 ≤ exponent)
    (fits : Canonical mantissa exponent ∨ mantissa = 9007199254740992) :
    exponent ≤ unit mantissa exponent
      ∧ place (truncate mantissa exponent) (unit mantissa exponent) = place mantissa exponent := by
  rcases fits with canonical | rfl
  · have same := canonical.unit_eq
    rw [truncate, same, show (exponent - exponent).toNat = 0 by omega, Nat.pow_zero, Nat.div_one]
    exact ⟨Int.le_refl _, rfl⟩
  · have bits : Nat.log2 9007199254740992 = 53 := by decide +kernel
    have same : unit 9007199254740992 exponent = exponent + 1 := by
      rw [unit, bits]
      omega
    rw [truncate, same, show (exponent + 1 - exponent).toNat = 1 by omega]
    unfold place
    omega

theorem round_eq (sign : Sign) {mantissa : Nat} {exponent : Int} (low : exponent ≤ unit mantissa exponent) :
    UnpackedFloat.round .binary64 sign mantissa exponent
      = roundWithAccuracy .binary64 sign mantissa exponent .exact := by
  have unshifted : (exponent - unit mantissa exponent).toNat = 0 := by omega
  rw [UnpackedFloat.round, targetExponent_eq, decreaseExponent]
  dsimp only
  rw [unshifted, Nat.shiftLeft_zero]
  congr 1
  omega

/-- Rounding never gives less than what is left without it. -/
theorem round_spec (sign : Sign) {mantissa : Nat} {exponent : Int} (low : exponent ≤ unit mantissa exponent)
    (left : 0 < truncate mantissa exponent) :
    ∃ (rounded : Nat) (scale : Int) (positive : 0 < rounded),
      UnpackedFloat.round .binary64 sign mantissa exponent = .finite sign rounded scale positive
        ∧ Canonical rounded scale
        ∧ place (truncate mantissa exponent) (unit mantissa exponent) ≤ place rounded scale := by
  have cut := canonical_truncate (Nat.pos_of_div_pos left) low
  rw [round_eq sign low, roundWithAccuracy]
  obtain ⟨itsMantissa, itsExponent⟩ := shiftToTargetExponent_exact low
  rcases first : shiftToTargetExponent .binary64 mantissa exponent .exact with ⟨extended, scale⟩
  rw [first] at itsMantissa itsExponent
  obtain rfl : scale = unit mantissa exponent := itsExponent
  have bounds := roundedMantissa_bounds extended
  rw [show extended.mantissa = truncate mantissa exponent from itsMantissa] at bounds
  -- Rounding may carry into one more digit, which the second shift takes away again.
  obtain ⟨farther, stays⟩ := place_truncate cut.low (cut.of_rounded bounds)
  obtain ⟨itsMantissa', itsExponent'⟩ := shiftToTargetExponent_exact farther
  dsimp only
  have grown : place (truncate mantissa exponent) (unit mantissa exponent)
      ≤ place (truncate extended.roundedMantissa (unit mantissa exponent))
        (unit extended.roundedMantissa (unit mantissa exponent)) := by
    rw [stays]
    unfold place
    omega
  have canonical := canonical_truncate (by omega) farther
  have remains : 0 < truncate extended.roundedMantissa (unit mantissa exponent) := by
    unfold place at stays
    have := canonical.normal
    have := cut.low
    omega
  rw [← itsMantissa'] at canonical remains grown
  rw [← itsExponent'] at canonical grown
  rw [dif_neg (Nat.ne_of_gt remains)]
  exact ⟨_, _, remains, rfl, canonical, grown⟩

/-! ## Sums -/

/-- A number that is not smaller is written at no smaller place, even where digits are cut off. -/
theorem place_le_truncate {mantissa total : Nat} {exponent scale : Int} (canonical : Canonical mantissa exponent)
    (positive : 0 < mantissa) (low : scale ≤ exponent)
    (enough : mantissa * 2 ^ (exponent - scale).toNat ≤ total) :
    scale ≤ unit total scale ∧ 0 < truncate total scale
      ∧ place mantissa exponent ≤ place (truncate total scale) (unit total scale) := by
  have shift : 0 < 2 ^ (exponent - scale).toNat := Nat.two_pow_pos _
  have nonzero : 0 < total := Nat.lt_of_lt_of_le (Nat.mul_pos positive shift) enough
  have higher : exponent ≤ unit total scale := by
    by_cases full : 4503599627370496 ≤ mantissa
    · have large : 2 ^ (52 + (exponent - scale).toNat) ≤ total := by
        rw [Nat.pow_add]
        exact Nat.le_trans (Nat.mul_le_mul_right _ full) enough
      have := (Nat.le_log2 (Nat.ne_of_gt nonzero)).2 large
      unfold unit
      omega
    · have := canonical.normal (by omega)
      unfold unit
      omega
  refine ⟨Int.le_trans low higher, ?_⟩
  -- All digits are in use at a larger exponent, which is a higher place. At the same one the mantissas decide.
  rcases Int.lt_or_eq_of_le higher with above | same
  · have full := (canonical_truncate nonzero (Int.le_trans low higher)).normal
    have := canonical.low
    have := canonical.short
    unfold place
    exact ⟨by omega, by omega⟩
  · have least : mantissa ≤ truncate total scale := by
      rw [truncate, ← same, Nat.le_div_iff_mul_le shift]
      exact enough
    unfold place
    exact ⟨by omega, by omega⟩

theorem add_finite {mantissa mantissa' : Nat} {exponent exponent' : Int} {positive : 0 < mantissa}
    {positive' : 0 < mantissa'} :
    UnpackedFloat.add .binary64 (.finite .positive mantissa exponent positive)
        (.finite .positive mantissa' exponent' positive')
      = UnpackedFloat.round .binary64 .positive (mantissa * 2 ^ (exponent - min exponent exponent').toNat
          + mantissa' * 2 ^ (exponent' - min exponent exponent').toNat) (min exponent exponent') := by
  have shifted : 0 < mantissa * 2 ^ (exponent - min exponent exponent').toNat :=
    Nat.mul_pos positive (Nat.two_pow_pos _)
  rw [UnpackedFloat.add, decreaseExponent, decreaseExponent]
  dsimp only
  rw [Nat.shiftLeft_eq, Nat.shiftLeft_eq, UnpackedFloat.normalize]
  dsimp only [Sign.apply]
  rw [← Int.natCast_add, Int.compare_eq_gt.2 (by omega), Int.toNat_natCast]

/-- The sum of two positive numbers takes no place below either of them. -/
theorem orderKey_pack_add {mantissa mantissa' : Nat} {exponent exponent' : Int} {positive : 0 < mantissa}
    {positive' : 0 < mantissa'} (canonical : Canonical mantissa exponent)
    (canonical' : Canonical mantissa' exponent') :
    ∃ magnitude, orderKey (.ofModel (.pack (.add .binary64 (.finite .positive mantissa exponent positive)
        (.finite .positive mantissa' exponent' positive')))) = min magnitude infinite
      ∧ place mantissa exponent ≤ magnitude ∧ place mantissa' exponent' ≤ magnitude := by
  obtain ⟨low, left, enough⟩ := place_le_truncate canonical positive (Int.min_le_left exponent exponent')
    (Nat.le_add_right _ (mantissa' * 2 ^ (exponent' - min exponent exponent').toNat))
  obtain ⟨-, -, enough'⟩ := place_le_truncate canonical' positive' (Int.min_le_right exponent exponent')
    (Nat.le_add_left _ (mantissa * 2 ^ (exponent - min exponent exponent').toNat))
  obtain ⟨rounded, scale, _, same, fits, grown⟩ := round_spec .positive low left
  rw [add_finite, same, orderKey_pack_finite .positive fits]
  exact ⟨_, rfl, Int.le_trans enough grown, Int.le_trans enough' grown⟩

theorem add_eq (x y : Float) : x + y = .ofModel (.pack (.add .binary64 x.toModel.unpack y.toModel.unpack)) := rfl

/-- A sum with something that is not a number is not a number. -/
theorem infinite_lt_orderKey_add {x y : Float} (beyond : infinite < orderKey x ∨ infinite < orderKey y) :
    infinite < orderKey (x + y) := by
  have undefined : ∀ {z : Float}, infinite < orderKey z → z.toModel.unpack = .notANumber := by
    intro z beyond
    have placed := placed_unpack z
    generalize z.toModel.unpack = u at placed ⊢
    generalize orderKey z = k at placed beyond
    rcases placed with _ | sign | sign | ⟨sign, canonical, high, rfl⟩
    case undefined => rfl
    case finite positive =>
      have bounds := canonical.place_bounds positive high
      cases sign <;> dsimp only [signed] at beyond <;> omega
    all_goals cases sign <;> exact absurd beyond (by decide)
  rw [add_eq]
  rcases beyond with first | second
  · rw [undefined first]
    exact orderKey_pack_notANumber
  · rw [undefined second]
    cases x.toModel.unpack <;> exact orderKey_pack_notANumber

theorem orderKey_pack {u : UnpackedFloat} {k : Int} (placed : Placed u k) (number : k ≤ infinite) :
    orderKey (.ofModel (.pack u)) = k := by
  rcases placed with beyond | sign | sign | ⟨sign, canonical, high, rfl⟩
  case undefined => omega
  case infinity => exact orderKey_pack_infinity sign
  case zero => exact orderKey_pack_zero sign
  case finite positive =>
    rw [orderKey_pack_finite sign canonical, Int.min_eq_left (Int.le_of_lt (canonical.place_bounds positive high).2)]

/-- What has a place between zero and infinity has a positive sign. -/
theorem Placed.of_nonneg {u : UnpackedFloat} {k : Int} (placed : Placed u k) (low : 0 ≤ k) (high : k ≤ infinite) :
    (u = .infinity .positive ∧ k = infinite) ∨ (u = .zero .positive ∧ k = 0)
      ∨ ∃ mantissa exponent positive, u = .finite .positive mantissa exponent positive
        ∧ Canonical mantissa exponent ∧ k = place mantissa exponent := by
  rcases placed with beyond | (_ | _) | (_ | _) | ⟨_ | _, canonical, inside, rfl⟩
  case undefined => omega
  case infinity.negative => exact absurd low (by decide)
  case infinity.positive => exact .inl ⟨rfl, rfl⟩
  case zero.negative => exact absurd low (by decide)
  case zero.positive => exact .inr (.inl ⟨rfl, rfl⟩)
  case finite.negative positive =>
    have bounds := canonical.place_bounds positive inside
    dsimp only [signed] at low
    omega
  case finite.positive positive => exact .inr (.inr ⟨_, _, positive, rfl, canonical, rfl⟩)

theorem Placed.eq_zero_of_neg_one {u : UnpackedFloat} (placed : Placed u (-1)) : u = .zero .negative := by
  generalize same : (-1 : Int) = k at placed
  rcases placed with beyond | (_ | _) | (_ | _) | ⟨_ | _, canonical, inside, rfl⟩
  case undefined =>
    unfold infinite at beyond
    omega
  case zero.negative => rfl
  case finite.negative positive | finite.positive positive =>
    have bounds := canonical.place_bounds positive inside
    dsimp only [signed] at same
    omega
  all_goals exact absurd same (by decide)

/-- Of numbers that are not negative, the sum is a number and not below either of them. -/
theorem orderKey_add {x y : Float} (low : 0 ≤ orderKey x) (high : orderKey x ≤ infinite) (low' : -1 ≤ orderKey y)
    (high' : orderKey y ≤ infinite) :
    orderKey x ≤ orderKey (x + y) ∧ orderKey y ≤ orderKey (x + y) ∧ orderKey (x + y) ≤ infinite := by
  have first := placed_unpack x
  have second := placed_unpack y
  rw [add_eq]
  generalize x.toModel.unpack = u at first
  generalize y.toModel.unpack = v at second
  generalize orderKey x = k at first low high
  generalize orderKey y = l at second low' high'
  have stays : ∀ {w m}, Placed w m → k ≤ m → l ≤ m → m ≤ infinite →
      k ≤ orderKey (.ofModel (.pack w)) ∧ l ≤ orderKey (.ofModel (.pack w))
        ∧ orderKey (.ofModel (.pack w)) ≤ infinite := by
    intro w m placed above above' number
    rw [orderKey_pack placed number]
    exact ⟨above, above', number⟩
  by_cases negative : l = -1
  -- Negative zero changes nothing.
  · subst negative
    obtain rfl := second.eq_zero_of_neg_one
    rcases first.of_nonneg low high with ⟨rfl, rfl⟩ | ⟨rfl, rfl⟩ | ⟨_, _, _, rfl, _, rfl⟩ <;>
      exact stays first (Int.le_refl _) (by omega) high
  have low'' : 0 ≤ l := by omega
  rcases first.of_nonneg low high with ⟨rfl, rfl⟩ | ⟨rfl, rfl⟩ | ⟨_, _, _, rfl, canonical, rfl⟩
  · rcases second.of_nonneg low'' high' with ⟨rfl, rfl⟩ | ⟨rfl, rfl⟩ | ⟨_, _, _, rfl, _, rfl⟩ <;>
      exact stays first (Int.le_refl _) high' (Int.le_refl _)
  · rcases second.of_nonneg low'' high' with ⟨rfl, rfl⟩ | ⟨rfl, rfl⟩ | ⟨_, _, _, rfl, _, rfl⟩ <;>
      exact stays second low'' (Int.le_refl _) high'
  · rcases second.of_nonneg low'' high' with ⟨rfl, rfl⟩ | ⟨rfl, rfl⟩ | ⟨_, _, _, rfl, canonical', rfl⟩
    · exact stays second high (Int.le_refl _) (Int.le_refl _)
    · exact stays first (Int.le_refl _) low high
    · obtain ⟨magnitude, same, above, above'⟩ := orderKey_pack_add canonical canonical'
      rw [same]
      omega

end NetworkAnalysis.Double
