import Mathlib.Algebra.Order.Ring.Rat
import NetworkAnalysis.Network
import NetworkAnalysis.Proofs.Relationships

/-!
# Routes and their costs

A route follows the steps of a network from a source; its cost is the sum of the weights, added up from left
to right, starting at zero. What an argument about cheapest routes needs of the arithmetic is collected in
`CostLaws`. Exact rationals obey these laws.

The steps of a loaded graph are its `legs`, which are read off the outgoing relationships alone: a step
against a relationship is a step along a relationship that leaves its other end.
-/

namespace NetworkAnalysis

/-- Numbers that can serve as costs: totally ordered, with a monotone addition which does not decrease a
cost when the weight is not negative. -/
class CostLaws (α : Type) [Scalar α] : Prop extends Std.IsLinearOrder α, Std.LawfulOrderLT α where
  /-- Entries are compared by the order of numbers. -/
  order_eq_lt : ∀ {a b : α}, Scalar.order a b = .lt ↔ a < b
  /-- Entries are compared by the order of numbers. -/
  order_eq_gt : ∀ {a b : α}, Scalar.order a b = .gt ↔ b < a
  /-- Addition is monotone. -/
  add_le_add_right : ∀ {a b : α} (weight : α), a ≤ b → a + weight ≤ b + weight
  /-- A weight that is not negative decreases no cost. -/
  le_add : ∀ {weight : α} (cost : α), Scalar.zero ≤ weight → cost ≤ cost + weight
  /-- A sum that starts from zero does not fall short of its only weight. -/
  le_zero_add : ∀ weight : α, weight ≤ Scalar.zero + weight
  /-- No cost at all is less than what counts as unreachable. -/
  zero_lt_unreachable : (Scalar.zero : α) < Scalar.unreachable

theorem order_rat (a b : Rat) :
    Scalar.order a b = if a < b then .lt else if a = b then .eq else .gt := rfl

instance : CostLaws Rat where
  le_refl _ := Rat.le_refl
  le_trans _ _ _ := Rat.le_trans
  le_antisymm _ _ := Rat.le_antisymm
  le_total _ _ := Rat.le_total
  lt_iff _ _ := lt_iff_le_not_ge
  order_eq_lt := by
    intro a b
    rw [order_rat]
    rcases lt_trichotomy a b with less | rfl | more
    · simp [less]
    · simp
    · simp [more.ne', not_lt.2 more.le]
  order_eq_gt := by
    intro a b
    rw [order_rat]
    rcases lt_trichotomy a b with less | rfl | more
    · simp [less, less.le]
    · simp
    · simp [more, more.ne', not_lt.2 more.le]
  add_le_add_right _ h := Rat.add_le_add_right.2 h
  le_add cost h := by
    have := Rat.add_le_add_left (c := cost).2 h
    rwa [show (Scalar.zero : Rat) = 0 from rfl, Rat.add_zero] at this
  le_zero_add weight := le_of_eq (Rat.zero_add weight).symm
  zero_lt_unreachable := by decide +kernel

/-! ## Routes -/

/-- There is a route from the source to a node, with these nodes and this cost. -/
inductive Network.Route {n : Nat} {α : Type} [Scalar α] (steps : Network n α) (source : Fin n) :
    Fin n → List (Fin n) → α → Prop where
  /-- The source is reached at no cost. -/
  | start : Route steps source source [source] Scalar.zero
  /-- One more step costs its weight. -/
  | step {node next : Fin n} {nodes : List (Fin n)} {cost weight : α} :
    Route steps source node nodes cost → (next, weight) ∈ steps node →
      Route steps source next (nodes ++ [next]) (cost + weight)

namespace Graph

variable {α : Type} [Scalar α]

/-- The steps along the relationships in a direction, as the outgoing lists of all nodes say. -/
def legs (g : Graph α) (direction : Direction) : Network g.size α := fun node =>
  (g.along direction node).map fun relationship => (relationship.other, g.weight relationship.id)

omit [Scalar α] in
/-- An outgoing step follows a relationship of the node, an incoming one a relationship of the other
end. -/
theorem mem_along {g : Graph α} {direction : Direction} {node : Fin g.size}
    {relationship : Relationship g.size} :
    relationship ∈ g.along direction node
      ↔ (direction.includesOutgoing ∧ relationship ∈ g.relationships node .outgoing)
        ∨ (direction.includesIncoming
            ∧ ⟨node, relationship.id⟩ ∈ g.relationships relationship.other .outgoing) := by
  have arrives : relationship ∈ g.arrivals node
      ↔ ⟨node, relationship.id⟩ ∈ g.relationships relationship.other .outgoing := by
    simp only [arrivals, List.mem_flatMap, List.mem_finRange, true_and, List.mem_map, List.mem_filter,
      decide_eq_true_eq]
    constructor
    · rintro ⟨start, ⟨other, id⟩, ⟨member, rfl⟩, rfl⟩
      exact member
    · intro member
      exact ⟨relationship.other, ⟨node, relationship.id⟩, ⟨member, rfl⟩, rfl⟩
  unfold along
  rw [List.mem_append]
  cases direction <;> simp [Direction.includesOutgoing, Direction.includesIncoming, arrives]

/-- No relationship of the graph has a negative weight. -/
def NonnegativeWeights (g : Graph α) : Prop :=
  ∀ node, ∀ relationship ∈ g.relationships node .outgoing, Scalar.zero ≤ g.weight relationship.id

theorem NonnegativeWeights.le_of_mem_legs {g : Graph α} (h : g.NonnegativeWeights)
    {direction : Direction} {node next : Fin g.size} {weight : α}
    (member : (next, weight) ∈ g.legs direction node) : Scalar.zero ≤ weight := by
  obtain ⟨relationship, followed, same⟩ := List.mem_map.1 member
  obtain ⟨-, rfl⟩ := Prod.mk.inj same
  rcases mem_along.1 followed with ⟨-, leaves⟩ | ⟨-, enters⟩
  · exact h node relationship leaves
  · exact h relationship.other ⟨node, relationship.id⟩ enters

theorem Shows.steps_eq_legs {g : Graph α} {rows : Table g.size (List (Fin g.size))}
    (h : g.Shows rows) (direction : Direction) : g.steps direction = g.legs direction := by
  funext node
  rw [steps, legs, h.relationships_eq_along]

end Graph

end NetworkAnalysis
