import NetworkAnalysis.Scalar

/-!
# Announcing progress

Progress is announced in whole percents, and only when it has come further than ever before.
-/

namespace NetworkAnalysis.Progress

/-- A number forced into the range from zero to one. -/
def clamp (x : Float) : Float :=
  if x < 0.0 then 0.0 else if 1.0 < x then 1.0 else x

/-- The whole percents of a fraction; an undefined fraction is none. -/
def percent (fraction : Float) : Nat :=
  ((clamp fraction * 100.0).floor).toUInt32.toNat

/-- Takes one more fraction: the highest percent so far, and the percent to announce, if it is new. -/
def advance (highest : Nat) (fraction : Float) : Nat × Option Nat :=
  let current := percent fraction
  (max highest current, if highest < current then some current else none)

/-- What is announced for each of a list of fractions. -/
def announcements : (highest : Nat) → List Float → List (Option Nat)
  | _, [] => []
  | highest, fraction :: rest =>
    let (highest, announced) := advance highest fraction
    announced :: announcements highest rest

end NetworkAnalysis.Progress
