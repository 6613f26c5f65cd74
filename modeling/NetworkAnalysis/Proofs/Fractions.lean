import NetworkAnalysis.Proofs.CostOrder
import NetworkAnalysis.Proofs.Double.Fractions

/-!
# Fractions of work

A run announces how much of its work is done as fractions that a count is of a whole. When the counts only grow and
never exceed the whole, the fractions never go back and stay between zero and one (`Counted.neverGoesBack`). That
fractions are ordered as the counts are holds of exact numbers, and of doubles as long as the whole is a word
(`OrderedFractions`).
-/

namespace NetworkAnalysis

open Scalar

/-- Fractions of a whole that is a word are ordered as the parts are, from zero for no part to one for the whole. -/
class OrderedFractions (α : Type) [Scalar α] : Prop where
  /-- A larger part is no smaller fraction. -/
  fraction_le : ∀ {part part' whole : Nat}, 0 < whole → whole < wordValues → part ≤ part' → part' ≤ whole →
    (fraction part whole : α) ≤ fraction part' whole
  /-- No fraction is negative. -/
  zero_le_fraction : ∀ {part whole : Nat}, 0 < whole → whole < wordValues → part ≤ whole →
    (zero : α) ≤ fraction part whole
  /-- The whole is one. -/
  fraction_self : ∀ {whole : Nat}, 0 < whole → whole < wordValues → (fraction whole whole : α) = one

instance : OrderedFractions Rat where
  fraction_le {part part' whole} positive _ less _ := by
    show (part / whole : Rat) ≤ part' / whole
    have : (part : Rat) ≤ part' := by exact_mod_cast less
    gcongr
  zero_le_fraction {part whole} _ _ _ := by
    show ((0 : Nat) : Rat) ≤ part / whole
    positivity
  fraction_self {whole} positive _ := by
    show (whole / whole : Rat) = ((1 : Nat) : Rat)
    rw [Nat.cast_one, div_self]
    exact_mod_cast Nat.ne_of_gt positive

instance : OrderedFractions Float where
  fraction_le positive word less within :=
    Double.le_iff.2 ⟨(Double.orderKey_fraction_bounds positive word (less.trans within)).2,
      (Double.orderKey_fraction_bounds positive word within).2,
      .inl (Double.orderKey_fraction_le positive word less within)⟩
  zero_le_fraction positive word less := by
    obtain ⟨low, high⟩ := Double.orderKey_fraction_bounds positive word less
    rw [Double.le_iff, Double.orderKey_zero]
    exact ⟨by decide, high, .inl low⟩
  fraction_self := Double.fraction_self

/-! ## Counts that grow -/

section Counted

variable {α : Type} [Scalar α] {whole reached reached' : Nat} {progress : List α}

/-- What was announced are the fractions of a whole that growing counts are, none above what is reached. -/
def Counted (whole reached : Nat) (progress : List α) : Prop :=
  ∃ parts : List Nat, parts.Pairwise (· ≤ ·) ∧ (∀ part ∈ parts, part ≤ reached)
    ∧ progress = parts.map fun part => fraction part whole

theorem Counted.nil (whole reached : Nat) : Counted whole reached ([] : List α) :=
  ⟨[], .nil, nofun, rfl⟩

theorem Counted.later (h : Counted whole reached progress) (grown : reached ≤ reached') :
    Counted whole reached' progress := by
  obtain ⟨parts, ordered, below, same⟩ := h
  exact ⟨parts, ordered, fun part member => (below part member).trans grown, same⟩

/-- One more count is announced when it is reached. -/
theorem Counted.concat (h : Counted whole reached progress) (grown : reached ≤ reached') :
    Counted whole reached' (progress ++ [fraction reached' whole]) := by
  obtain ⟨parts, ordered, below, rfl⟩ := h
  have below' : ∀ part ∈ parts, part ≤ reached' := fun part member => (below part member).trans grown
  refine ⟨parts ++ [reached'], ?_, ?_, ?_⟩
  · rw [List.pairwise_append]
    refine ⟨ordered, List.pairwise_singleton _ _, fun part member last same => ?_⟩
    rw [List.mem_singleton.1 same]
    exact below' part member
  · intro part member
    rcases List.mem_append.1 member with before | last
    · exact below' part before
    · exact (List.mem_singleton.1 last).le
  · rw [List.map_append, List.map_singleton]

theorem Counted.push {progress : Array α} (h : Counted whole reached progress.toList) (grown : reached ≤ reached') :
    Counted whole reached' (progress.push (fraction reached' whole)).toList := by
  rw [Array.toList_push]
  exact h.concat grown

/-- What is asked of the fractions that a run announces: they never go back, they stay between zero and one, and each
is a part divided by a whole that is not zero. -/
structure NeverGoesBack (progress : List α) : Prop where
  ordered : progress.Pairwise (· ≤ ·)
  within : ∀ x ∈ progress, zero ≤ x ∧ x ≤ one
  divided : ∀ x ∈ progress, ∃ part whole, 0 < whole ∧ part ≤ whole ∧ x = fraction part whole

variable [OrderedFractions α]

theorem Counted.neverGoesBack (h : Counted whole reached progress) (within : reached ≤ whole) (positive : 0 < whole)
    (word : whole < wordValues) : NeverGoesBack progress := by
  obtain ⟨parts, ordered, below, rfl⟩ := h
  have fits : ∀ part ∈ parts, part ≤ whole := fun part member => (below part member).trans within
  constructor
  case ordered =>
    rw [List.pairwise_map]
    exact ordered.imp_of_mem fun _ member less => OrderedFractions.fraction_le positive word less (fits _ member)
  case within =>
    intro x announced
    obtain ⟨part, member, rfl⟩ := List.mem_map.1 announced
    refine ⟨OrderedFractions.zero_le_fraction positive word (fits part member), ?_⟩
    rw [← OrderedFractions.fraction_self positive word]
    exact OrderedFractions.fraction_le positive word (fits part member) le_rfl
  case divided =>
    intro x announced
    obtain ⟨part, member, rfl⟩ := List.mem_map.1 announced
    exact ⟨part, whole, positive, fits part member, rfl⟩

/-- When all is done one is announced, which is the whole of the whole. -/
theorem Counted.finish (h : Counted whole reached progress) (within : reached ≤ whole) (positive : 0 < whole)
    (word : whole < wordValues) (completed : Bool) :
    NeverGoesBack (progress ++ if completed then [one] else []) := by
  cases completed with
  | false =>
    rw [if_neg Bool.false_ne_true, List.append_nil]
    exact h.neverGoesBack within positive word
  | true =>
    rw [if_pos rfl, ← OrderedFractions.fraction_self positive word]
    exact (h.concat within).neverGoesBack le_rfl positive word

end Counted

end NetworkAnalysis
