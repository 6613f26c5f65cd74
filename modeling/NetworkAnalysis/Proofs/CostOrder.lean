import NetworkAnalysis.Proofs.Double.Addition
import NetworkAnalysis.Proofs.ShortestPath.Routes

/-!
# The order of costs

A search compares costs in two ways: it records a path that is cheaper by `<`, and it sorts the frontier by
`Scalar.order`. On doubles these differ, for what is not a number and for the two zeros. `OrderedCosts` is all that is
left when weights may be anything: the order of the frontier is total, and `<` implies it. `GrowingCosts` adds what
holds of weights that are not negative, where costs only grow. Exact rationals and doubles obey both.
-/

namespace NetworkAnalysis

namespace Scalar

variable {α : Type} [Scalar α]

/-- One number comes before another in the order of all numbers. -/
def Below (a b : α) : Prop := order a b = .lt

/-- One number does not come after another in the order of all numbers. -/
def AtMost (a b : α) : Prop := (order a b).isLE = true

end Scalar

open Scalar

/-- Numbers that a search can compare, whatever the weights are. -/
class OrderedCosts (α : Type) [Scalar α] : Prop where
  /-- The order of all numbers is total. -/
  trans : Std.TransCmp (order : α → α → Ordering)
  /-- Different numbers have different places in the order. -/
  lawful : Std.LawfulEqCmp (order : α → α → Ordering)
  /-- A smaller number comes before a larger one. -/
  below_of_lt : ∀ {a b : α}, a < b → Below a b
  /-- No cost at all comes before what counts as unreachable. -/
  zero_below_unreachable : Below (zero : α) unreachable
  /-- A weight that does not count as unreachable, and with which some cost is below another, is smaller. -/
  lt_unreachable : ∀ {cost weight bound : α}, cost + weight < bound → ¬unreachable ≤ weight → weight < unreachable

attribute [instance] OrderedCosts.trans OrderedCosts.lawful

namespace Scalar

variable {α : Type} [Scalar α] [OrderedCosts α] {a b c : α}

theorem AtMost.refl (a : α) : AtMost a a :=
  Std.ReflCmp.isLE_rfl

theorem AtMost.trans (first : AtMost a b) (second : AtMost b c) : AtMost a c :=
  Std.TransCmp.isLE_trans first second

theorem AtMost.antisymm (first : AtMost a b) (second : AtMost b a) : a = b :=
  Std.LawfulEqCmp.eq_of_compare (Std.OrientedCmp.isLE_antisymm first second)

theorem Below.trans_atMost (first : Below a b) (second : AtMost b c) : Below a c :=
  Std.TransCmp.lt_of_lt_of_isLE first second

omit [OrderedCosts α] in
theorem Below.atMost (h : Below a b) : AtMost a b := by
  rw [AtMost, h]
  rfl

theorem not_below : ¬Below a b ↔ AtMost b a := by
  rw [Below, AtMost, Ordering.isLE_iff_ne_gt, Std.OrientedCmp.gt_iff_lt]

theorem Below.ne (h : Below a b) : a ≠ b := by
  rintro rfl
  exact not_below.2 (AtMost.refl a) h

end Scalar

/-! ## Costs that only grow -/

/-- A number that can be the cost of a path whose weights are not negative. -/
def Scalar.IsCost {α : Type} [Scalar α] (cost : α) : Prop := AtMost zero cost ∧ zero ≤ cost

/-- Numbers whose order is the order of the frontier where they are costs, and to which weights that are not
negative can be added. -/
class GrowingCosts (α : Type) [Scalar α] : Prop extends OrderedCosts α where
  /-- No cost at all is a cost. -/
  zero_le_zero : (zero : α) ≤ zero
  /-- What counts as unreachable is a cost. -/
  zero_le_unreachable : (zero : α) ≤ unreachable
  /-- A cost that comes before another in the frontier is cheaper. -/
  lt_of_below : ∀ {a b : α}, IsCost a → IsCost b → Below a b → a < b
  /-- A cost that does not come after another in the frontier is not dearer. -/
  le_of_atMost : ∀ {a b : α}, IsCost a → IsCost b → AtMost a b → a ≤ b
  /-- Adding a weight leaves a cost. -/
  zero_le_add : ∀ {cost weight : α}, IsCost cost → zero ≤ weight → zero ≤ cost + weight
  /-- Adding a weight takes nothing away. -/
  atMost_add : ∀ {cost weight : α}, IsCost cost → zero ≤ weight → AtMost cost (cost + weight)
  /-- A sum with an unreachable weight is unreachable. -/
  unreachable_atMost_add : ∀ {cost weight : α}, IsCost cost → zero ≤ weight → unreachable ≤ weight →
    AtMost unreachable (cost + weight)

namespace Scalar.IsCost

variable {α : Type} [Scalar α] [GrowingCosts α] {cost weight : α}

theorem zero : IsCost (Scalar.zero : α) :=
  ⟨AtMost.refl _, GrowingCosts.zero_le_zero⟩

theorem unreachable : IsCost (Scalar.unreachable : α) :=
  ⟨OrderedCosts.zero_below_unreachable.atMost, GrowingCosts.zero_le_unreachable⟩

theorem add (h : IsCost cost) (nonnegative : Scalar.zero ≤ weight) : IsCost (cost + weight) :=
  ⟨h.1.trans (GrowingCosts.atMost_add h nonnegative), GrowingCosts.zero_le_add h nonnegative⟩

end Scalar.IsCost

/-! ## Exact costs -/

section Laws

variable {α : Type} [Scalar α] [CostLaws α] {a b : α}

theorem CostLaws.below_iff : Below a b ↔ a < b :=
  CostLaws.order_eq_lt

theorem CostLaws.atMost_iff : AtMost a b ↔ a ≤ b := by
  rw [AtMost, Ordering.isLE_iff_ne_gt, CostLaws.order_eq_gt, Std.not_lt]

/-- Linearly ordered costs obey all laws. -/
instance (priority := low) CostLaws.growingCosts : GrowingCosts α where
  trans :=
    { eq_swap := by
        intro a b
        rcases less : order b a with _ | _ | _
        · exact order_eq_gt.2 (order_eq_lt.1 less)
        · rcases more : order a b with _ | _ | _
          · rw [order_eq_gt.2 (order_eq_lt.1 more)] at less
            cases less
          · rfl
          · rw [order_eq_lt.2 (order_eq_gt.1 more)] at less
            cases less
        · exact order_eq_lt.2 (order_eq_gt.1 less)
      isLE_trans := fun first second => atMost_iff.2 (Std.le_trans (atMost_iff.1 first) (atMost_iff.1 second)) }
  lawful :=
    { compare_self := by
        intro a
        rcases same : order a a with _ | _ | _
        · exact absurd (order_eq_lt.1 same) Std.lt_irrefl
        · rfl
        · exact absurd (order_eq_gt.1 same) Std.lt_irrefl
      eq_of_compare := by
        intro a b same
        refine Std.le_antisymm (Std.not_lt.1 fun less => ?_) (Std.not_lt.1 fun less => ?_)
        · rw [order_eq_gt.2 less] at same
          cases same
        · rw [order_eq_lt.2 less] at same
          cases same }
  below_of_lt := below_iff.2
  zero_below_unreachable := below_iff.2 zero_lt_unreachable
  lt_unreachable _ light := Std.not_le.1 light
  zero_le_zero := Std.le_refl _
  zero_le_unreachable := Std.le_of_lt zero_lt_unreachable
  lt_of_below _ _ := below_iff.1
  le_of_atMost _ _ := atMost_iff.1
  zero_le_add h nonnegative := Std.le_trans h.2 (le_add _ nonnegative)
  atMost_add _ nonnegative := atMost_iff.2 (le_add _ nonnegative)
  unreachable_atMost_add h _ heavy :=
    atMost_iff.2 (Std.le_trans heavy (Std.le_trans (le_zero_add _) (add_le_add_right _ h.2)))

end Laws

/-! ## Doubles -/

namespace Double

theorem orderKey_zero : orderKey (zero : Float) = 0 := rfl

theorem orderKey_unreachable : orderKey (unreachable : Float) = 9218868437227405311 := rfl

theorem below_iff {x y : Float} : Below x y ↔ orderKey x < orderKey y :=
  Int.compare_eq_lt

theorem atMost_iff {x y : Float} : AtMost x y ↔ orderKey x ≤ orderKey y :=
  Int.isLE_compare

/-- The costs of doubles are the places from zero to infinity. -/
theorem isCost_iff {x : Float} : IsCost x ↔ 0 ≤ orderKey x ∧ orderKey x ≤ infinite := by
  rw [IsCost, atMost_iff]
  show _ ∧ (zero : Float) ≤ x ↔ _
  rw [le_iff, orderKey_zero]
  unfold infinite
  omega

theorem orderKey_add_of_isCost {cost weight : Float} (h : IsCost cost) (nonnegative : (zero : Float) ≤ weight) :
    orderKey cost ≤ orderKey (cost + weight) ∧ orderKey weight ≤ orderKey (cost + weight)
      ∧ orderKey (cost + weight) ≤ infinite := by
  obtain ⟨-, number, low⟩ := le_iff.1 nonnegative
  obtain ⟨low', number'⟩ := isCost_iff.1 h
  rw [orderKey_zero] at low
  exact orderKey_add low' number' (by omega) number

end Double

instance : GrowingCosts Float where
  trans := inferInstanceAs (Std.TransCmp (compareOn orderKey))
  lawful :=
    { compare_self := Int.compare_eq_eq.2 rfl
      eq_of_compare := fun same => Double.orderKey_injective (Int.compare_eq_eq.1 same) }
  below_of_lt less := Double.below_iff.2 (Double.lt_iff.1 less).1
  zero_below_unreachable := rfl
  lt_unreachable := by
    intro cost weight bound less light
    have number := (Double.lt_iff.1 less).2.1
    have smaller := (Double.lt_iff.1 less).1
    have defined : orderKey weight ≤ Double.infinite := by
      refine Int.not_lt.1 fun beyond => ?_
      have := Double.infinite_lt_orderKey_add (x := cost) (.inr beyond)
      omega
    have light := mt Double.le_iff.2 light
    refine Double.lt_iff.2 ?_
    rw [Double.orderKey_unreachable] at light ⊢
    unfold Double.infinite at defined light ⊢
    omega
  zero_le_zero := (Double.isCost_iff.2 (by decide)).2
  zero_le_unreachable := (Double.isCost_iff.2 (by decide)).2
  lt_of_below := by
    intro a b first second less
    have := Double.isCost_iff.1 first
    have := Double.isCost_iff.1 second
    have := Double.below_iff.1 less
    exact Double.lt_iff.2 ⟨this, by omega, by omega⟩
  le_of_atMost := by
    intro a b first second less
    have := Double.isCost_iff.1 first
    have := Double.isCost_iff.1 second
    have := Double.atMost_iff.1 less
    exact Double.le_iff.2 ⟨by omega, by omega, .inl this⟩
  zero_le_add h nonnegative := by
    have bounds := Double.orderKey_add_of_isCost h nonnegative
    have := Double.isCost_iff.1 h
    exact (Double.isCost_iff.2 ⟨by omega, bounds.2.2⟩).2
  atMost_add h nonnegative := Double.atMost_iff.2 (Double.orderKey_add_of_isCost h nonnegative).1
  unreachable_atMost_add h nonnegative heavy := by
    have enough := (Double.le_iff.1 heavy).2.2
    rw [Double.orderKey_unreachable] at enough
    rw [Double.atMost_iff, Double.orderKey_unreachable]
    have := (Double.orderKey_add_of_isCost h nonnegative).2.1
    omega

end NetworkAnalysis
