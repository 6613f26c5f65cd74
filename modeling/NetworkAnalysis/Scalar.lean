import NetworkAnalysis.Decimal.Text
import NetworkAnalysis.Word

/-!
# The arithmetic of weights, costs and scores

Every algorithm of this library computes with numbers of one type `α`, through the operations collected
in `Scalar`. The program runs at `Float`; laws of the algorithms that ask for exact arithmetic are read
at `Rat`. Nothing else is assumed of the operations here: a law that an argument needs is a hypothesis
of that argument.
-/

namespace NetworkAnalysis

/-- Numbers for weights, costs and scores. -/
class Scalar (α : Type) extends Add α, Sub α, Mul α, Div α, LT α, LE α where
  /-- Whether `a < b` can be tested. -/
  [decLT : DecidableLT α]
  /-- Whether `a ≤ b` can be tested. -/
  [decLE : DecidableLE α]
  /-- The number that stands for a count. -/
  ofNat : Nat → α
  /-- What a running sum starts from. -/
  emptySum : α
  /-- The cost of a node that no path reaches. A weight or a sum that comes up to it is never used. -/
  unreachable : α
  /-- The relative difference below which two gains of modularity count as equal. -/
  slack : α
  /-- Whether the number is neither infinite nor undefined. -/
  isFinite : α → Bool
  /-- A total order on all numbers, undefined ones and both zeros included. -/
  order : α → α → Ordering
  /-- The number as messages write it. -/
  text : α → String

attribute [reducible, instance] Scalar.decLT Scalar.decLE

namespace Scalar

variable {α : Type} [Scalar α]

/-- The number zero. -/
def zero : α := ofNat 0

/-- The number one. -/
def one : α := ofNat 1

/-- The number two. -/
def two : α := ofNat 2

/-- The sum of a list, added up from left to right. -/
def sum (xs : List α) : α :=
  xs.foldl (· + ·) emptySum

/-- The fraction that `part` is of `whole`. -/
def fraction (part whole : Nat) : α :=
  ofNat part / ofNat whole

end Scalar

/-- The place of a double in the order of all bit patterns: negative numbers come first, larger
magnitudes further out, and negative zero just before zero. -/
def orderKey (x : Float) : Int :=
  let bits := x.toBits.toNat
  if bits < wordHalf then (bits : Int) else wordHalf - 1 - (bits : Int)

/-- Double-precision arithmetic. A sum starts from negative zero, which is the neutral element of
addition, and the largest finite double marks what cannot be reached. -/
instance : Scalar Float where
  ofNat n := Float.ofNat n
  emptySum := -0.0
  unreachable := Float.ofBits 0x7FEFFFFFFFFFFFFF
  slack := 1e-12
  isFinite x := x.isFinite
  order x y := compare (orderKey x) (orderKey y)
  text x := Decimal.plain x

/-- Exact arithmetic, with the same distinguished numbers. -/
instance : Scalar Rat where
  ofNat n := n
  emptySum := 0
  unreachable := ((Nat.pow 2 53 - 1) * Nat.pow 2 971 : Nat)
  slack := 1 / 1000000000000
  isFinite _ := true
  order x y := if x < y then .lt else if x = y then .eq else .gt
  text x := toString x

end NetworkAnalysis
