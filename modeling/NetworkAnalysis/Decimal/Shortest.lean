/-!
# Shortest decimal forms of binary floating-point numbers

A finite double is `m · 2^q` for a natural `m` and an integer `q`, and every real number closer to it
than to its neighbours reads back as the same double. `shortest` looks for the decimal number with the
fewest digits in that interval: it walks down the grids of multiples of `10^g`, from one that is too
coarse, and takes the first grid with a point in the interval. Of two such points the nearer one wins;
an exact tie is left to the caller.

All comparisons are between natural numbers, so the result is exact.
-/

namespace NetworkAnalysis.Decimal

/-- The number `digits · 10^exponent`. -/
structure Numeral where
  /-- The significant digits, read as one number. -/
  digits : Nat
  /-- The power of ten that the last digit counts. -/
  exponent : Int
deriving DecidableEq, Repr

/-- The number `mantissa · 2^exponent`, as a double stores it. -/
structure Binary where
  /-- The significand, with the hidden bit of a normal number in place. -/
  mantissa : Nat
  /-- The power of two that the last bit of the significand counts. -/
  exponent : Int
deriving DecidableEq, Repr

/-- Which neighbour an exact tie goes to. -/
inductive Tie where
  /-- The larger of the two. -/
  | up
  /-- The one with an even last digit. -/
  | even
deriving DecidableEq, Repr

/-- What the bits of a double stand for. -/
inductive Class where
  /-- Not a number. -/
  | nan
  /-- Positive or negative infinity. -/
  | infinite (negative : Bool)
  /-- A finite number with its sign; both zeros have the mantissa `0`. -/
  | finite (negative : Bool) (value : Binary)
deriving DecidableEq, Repr

/-- Reads the sign, the exponent and the significand out of the bits of a double. -/
def classifyBits (bits : Nat) : Class :=
  let negative := bits / Nat.pow 2 63 % 2 == 1
  let exponent : Nat := bits / Nat.pow 2 52 % Nat.pow 2 11
  let fraction := bits % Nat.pow 2 52
  if exponent = 2047 then
    if fraction = 0 then .infinite negative else .nan
  else if exponent = 0 then
    .finite negative ⟨fraction, -1074⟩
  else
    .finite negative ⟨Nat.pow 2 52 + fraction, (exponent : Int) - 1075⟩

/-- What a double stands for. -/
def classify (x : Float) : Class :=
  classifyBits x.toBits.toNat

namespace Binary

/-- The numerator and the denominator of `quarters · 2^(q-2) / 10^g`: a number given in quarters of
the last bit, measured in units of the grid of step `10^g`. -/
def onGrid (quarters : Nat) (q g : Int) : Nat × Nat :=
  (quarters * Nat.pow 2 (q - 2).toNat * Nat.pow 10 (-g).toNat,
    Nat.pow 10 g.toNat * Nat.pow 2 (2 - q).toNat)

/-- The least number, in quarters of the last bit, that may still read back as the value. Below a power
of two the neighbouring doubles are twice as dense. -/
def lowest (x : Binary) : Nat :=
  if x.mantissa = Nat.pow 2 52 ∧ x.exponent ≠ -1074 then 4 * x.mantissa - 1 else 4 * x.mantissa - 2

/-- The greatest number, in quarters of the last bit, that may still read back as the value. -/
def highest (x : Binary) : Nat :=
  4 * x.mantissa + 2

/-- Whether `c · 10^g` reads back as the value. The ends of the interval belong to it when the
significand is even. -/
def readsBack (x : Binary) (g : Int) (c : Nat) : Bool :=
  let (lo, step) := onGrid x.lowest x.exponent g
  let (hi, _) := onGrid x.highest x.exponent g
  if x.mantissa % 2 = 0 then lo ≤ c * step && c * step ≤ hi else lo < c * step && c * step < hi

/-- The multiple of `10^g` that reads back as the value and lies nearest to it, if there is one. -/
def nearestOn (x : Binary) (tie : Tie) (g : Int) : Option Nat :=
  let (value, step) := onGrid (4 * x.mantissa) x.exponent g
  let below := value / step
  match x.readsBack g below, x.readsBack g (below + 1) with
  | false, false => none
  | true, false => some below
  | false, true => some (below + 1)
  | true, true =>
    let doubled := 2 * (value % step)
    if doubled < step then some below
    else if step < doubled then some (below + 1)
    else match tie with
      | .up => some (below + 1)
      | .even => some (if below % 2 = 0 then below else below + 1)

/-- An exponent `g` with the value below `10^g`. -/
def coarse (x : Binary) : Int :=
  ((x.mantissa.log2 + 1 : Nat) + x.exponent) * 30103 / 100000 + 1

/-- The first of the grids `10^g`, `10^(g-1)`, … that has a point reading back as the value, among
`steps` of them. -/
def firstHit (x : Binary) (tie : Tie) : Nat → Int → Option Numeral
  | 0, _ => none
  | steps + 1, g =>
    match x.nearestOn tie g with
    | some c => some ⟨c, g⟩
    | none => firstHit x tie steps (g - 1)

/-- The decimal number with the fewest digits that reads back as the value. Seventeen significant
digits always do, so the search ends within twenty grids of the coarse one. -/
def shortest (x : Binary) (tie : Tie) : Numeral :=
  if x.mantissa = 0 then ⟨0, 0⟩ else (x.firstHit tie 24 x.coarse).getD ⟨0, 0⟩

/-- The value in units of `10^-places`, rounded to the nearest whole number, ties to even. -/
def rounded (x : Binary) (places : Nat) : Nat :=
  let num := x.mantissa * Nat.pow 2 x.exponent.toNat * Nat.pow 10 places
  let den := Nat.pow 2 (-x.exponent).toNat
  let below := num / den
  let doubled := 2 * (num % den)
  if doubled < den then below
  else if den < doubled then below + 1
  else if below % 2 = 0 then below else below + 1

end Binary

end NetworkAnalysis.Decimal
