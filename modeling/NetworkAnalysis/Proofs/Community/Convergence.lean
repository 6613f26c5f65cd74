import NetworkAnalysis.Proofs.Community.Settling

/-!
# Searches that converge

A search that its watch does not stop, and that ends before its cap of levels, ends at a level at which nothing moves
(`Climb.run_converged`). A search that starts at such a level stays where it is.
-/

namespace NetworkAnalysis.Community

variable {n m : Nat} {α : Type} [Scalar α]

theorem optimize_always (limits : Limits) (polls : Nat) (level : Level n α) :
    (optimize limits .always polls level).completed = true := by
  have passes : ∀ (left : Nat) (state : MoveState n α) (passes moves polls : Nat),
      (optimizeFrom limits .always level left state passes moves polls).completed = true := by
    intro left
    induction left with
    | zero => exact fun _ _ _ _ => rfl
    | succ left ih =>
      intro state passes moves polls
      rw [optimizeFrom_of_go rfl]
      split
      · rfl
      · exact ih _ _ _ _
  exact passes _ _ _ _ _

namespace Climb

theorem run_always (limits : Limits) (left : Nat) (c : Climb n m α) :
    (c.run limits .always left).completed = true := by
  induction left generalizing m c with
  | zero => rfl
  | succ left ih =>
    have finished := optimize_always limits c.polls c.level
    unfold run
    dsimp only
    split
    · exact finished
    · exact ih _

/-- A run that ends before its cap of levels has come to a level at which nothing moves. -/
theorem run_converged {limits : Limits} {watch : Watch} {P : {m : Nat} → Climb n m α → Prop}
    (next : ∀ {m : Nat} (c : Climb n m α) (run : LevelRun m α), P c → P (c.next limits run))
    (left : Nat) (c : Climb n m α) (start : P c) (completed : (c.run limits watch left).completed = true)
    (early : (c.run limits watch left).value.levels < c.levels + left) :
    ∃ (k : Nat) (last : Climb n k α), P last
      ∧ (optimize limits watch last.polls last.level).moves = 0
      ∧ (optimize limits watch last.polls last.level).completed = true
      ∧ c.run limits watch left = (last.rest (optimize limits watch last.polls last.level)).report true := by
  induction left generalizing m c with
  | zero => exact absurd early (Nat.lt_irrefl _)
  | succ left ih =>
    unfold run at completed early ⊢
    dsimp only at completed early ⊢
    by_cases still : (optimize limits watch c.polls c.level).moves = 0
    · rw [if_pos still] at completed ⊢
      have finished : (optimize limits watch c.polls c.level).completed = true := completed
      exact ⟨m, c, start, still, finished, by rw [finished]⟩
    · rw [if_neg still] at completed early ⊢
      by_cases finished : (optimize limits watch c.polls c.level).completed = true
      · rw [if_pos finished] at completed early ⊢
        refine ih _ (next c _ start) completed (early.trans_eq ?_)
        show c.levels + (left + 1) = c.levels + 1 + left
        omega
      · rw [if_neg finished] at completed
        cases completed

/-- A search at a level at which nothing moves stays where it is. -/
theorem run_of_pass {limits : Limits} (c : Climb n m α)
    (still : (limits.pass c.level (.singletons c.level)).2 = 0) (watch : Watch) {left : Nat} (allowed : left ≠ 0) :
    (c.run limits watch left).value
      = { c.found with iterations := (c.run limits watch left).value.iterations } := by
  obtain ⟨left, rfl⟩ := Nat.exists_eq_succ_of_ne_zero allowed
  unfold run
  dsimp only
  rw [if_pos (optimize_of_pass still watch c.polls)]
  rfl

end Climb

end NetworkAnalysis.Community
