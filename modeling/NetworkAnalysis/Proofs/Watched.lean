import Mathlib
import NetworkAnalysis.Run

/-!
# Runs under a watch

A run asks its watch one question after the other, without leaving out a number, and ends at once when the answer
is no. As a function of the watch it is therefore a chain of questions with an end (`Watched`). Where such a run
ends depends on the first no alone: a run that finishes is the run that is never told to stop, and under a budget
a run asks as often as that one would, or once more than the budget allows.
-/

namespace NetworkAnalysis

variable {σ τ : Type} {polls : σ → Nat} {completed : σ → Bool} {first budget : Nat} {run : Watch → σ}

/-- A run asks its watch from the question `first` on. What it leaves says how often the watch was asked in all,
and whether the run finished. -/
inductive Watched (polls : σ → Nat) (completed : σ → Bool) : (first : Nat) → (Watch → σ) → Prop where
  /-- The run finishes without a question. -/
  | ends {first : Nat} {result : σ} (counted : polls result = first) (finished : completed result = true) :
    Watched polls completed first fun _ => result
  /-- The run asks, and leaves `cut` if it may not go on. -/
  | asks {first : Nat} {cut : σ} {rest : Watch → σ} (counted : polls cut = first + 1)
    (stopped : completed cut = false) (goes : Watched polls completed (first + 1) rest) :
    Watched polls completed first fun watch => if !watch first then cut else rest watch

namespace Watched

variable (h : Watched polls completed first run)

include h

theorem first_le (watch : Watch) : first ≤ polls (run watch) := by
  induction h with
  | ends counted _ => exact Nat.le_of_eq counted.symm
  | @asks first cut rest counted _ _ ih =>
    dsimp only
    split
    · exact counted ▸ Nat.le_succ first
    · exact Nat.le_of_succ_le ih

theorem completed_always : completed (run .always) = true := by
  induction h with
  | ends _ finished => exact finished
  | asks _ _ _ ih => exact ih

/-- A run that finishes was never told to stop. -/
theorem eq_always {watch : Watch} (finished : completed (run watch) = true) : run watch = run .always := by
  induction h with
  | ends => rfl
  | @asks first cut rest _ stopped _ ih =>
    dsimp only at finished ⊢
    split at finished
    · rw [stopped] at finished
      cases finished
    · next more =>
      rw [if_neg more]
      exact ih finished

/-- A budget is used up, or suffices for the whole run. -/
theorem polls_budget (unspent : first ≤ budget) :
    polls (run (.budget budget)) = min (budget + 1) (polls (run .always)) := by
  induction h with
  | ends counted _ =>
    dsimp only
    omega
  | @asks first cut rest counted _ goes ih =>
    show polls (if !decide (first < budget) then cut else rest (.budget budget)) = min _ (polls (rest .always))
    by_cases more : first < budget
    · simpa [more] using ih more
    · have later := goes.first_le .always
      simp only [more, decide_false, Bool.not_false, if_true, counted]
      omega

/-- A run under a budget finishes exactly if the budget allows as many questions as the run has. -/
theorem completed_budget_iff (unspent : first ≤ budget) :
    completed (run (.budget budget)) = true ↔ polls (run .always) ≤ budget := by
  induction h with
  | ends counted finished => exact ⟨fun _ => counted ▸ unspent, fun _ => finished⟩
  | @asks first cut rest _ stopped goes ih =>
    show completed (if !decide (first < budget) then cut else rest (.budget budget)) = true
      ↔ polls (rest .always) ≤ budget
    by_cases more : first < budget
    · simpa [more] using ih more
    · have later := goes.first_le .always
      simp only [more, decide_false, Bool.not_false, if_true, stopped, Bool.false_eq_true, false_iff]
      omega

theorem eq_of_enough (unspent : first ≤ budget) (enough : polls (run .always) ≤ budget) :
    run (.budget budget) = run .always :=
  h.eq_always ((h.completed_budget_iff unspent).2 enough)

/-- Where the budget does not suffice, the run is stopped with the question after the last one. -/
theorem cut_of_short (unspent : first ≤ budget) (short : budget < polls (run .always)) :
    polls (run (.budget budget)) = budget + 1 ∧ completed (run (.budget budget)) = false := by
  refine ⟨(h.polls_budget unspent).trans (Nat.min_eq_left short), ?_⟩
  rw [← Bool.not_eq_true]
  exact fun finished => Nat.not_le.2 short ((h.completed_budget_iff unspent).1 finished)

/-- Only the answers up to the first no matter. -/
theorem eq_of_agree {watch watch' : Watch} {stop : Nat} (unspent : first ≤ stop)
    (agree : ∀ poll < stop, watch poll = watch' poll) (no : watch stop = false) (no' : watch' stop = false) :
    run watch = run watch' := by
  induction h with
  | ends => rfl
  | @asks first cut rest _ _ _ ih =>
    dsimp only
    rcases Nat.lt_or_eq_of_le unspent with more | rfl
    · rw [agree first more, ih more]
    · rw [no, no']
      rfl

/-- A run that goes on where another one has finished asks from the next question on. -/
theorem bind {polls' : τ → Nat} {completed' : τ → Bool} (next : σ → Watch → τ)
    (goes : ∀ result, completed result = true → Watched polls' completed' (polls result) (next result))
    (stops : ∀ result, completed result = false → ∃ cut, polls' cut = polls result ∧ completed' cut = false
      ∧ ∀ watch, next result watch = cut) :
    Watched polls' completed' first fun watch => next (run watch) watch := by
  induction h with
  | ends counted finished => exact counted ▸ goes _ finished
  | @asks first cut rest counted stopped _ ih =>
    obtain ⟨cut', counted', stopped', constant⟩ := stops cut stopped
    have pushed : (fun watch : Watch => next (if !watch first then cut else rest watch) watch)
        = fun watch => if !watch first then cut' else next (rest watch) watch := by
      funext watch
      split
      · exact constant watch
      · rfl
    rw [pushed]
    exact .asks (counted'.trans counted) stopped' ih

omit h in
/-- A run under any watch is a run under a budget, which is the number of questions before the first no as far as
`bound` questions go. -/
theorem exists_budget (h : Watched polls completed 0 run) (watch : Watch) (bound : Nat) :
    ∃ budget, run watch = run (.budget budget) ∧ ∀ count ≤ bound,
      count ≤ budget ↔ ∀ poll < count, watch poll = true := by
  by_cases no : ∃ poll, watch poll = false
  · have yes : ∀ poll < Nat.find no, watch poll = true := fun poll before => by simpa using Nat.find_min no before
    refine ⟨Nat.find no, h.eq_of_agree (Nat.zero_le _) (fun poll before => ?_) (Nat.find_spec no) ?_, fun count _ =>
      ⟨fun le poll before => yes poll (before.trans_le le), fun all => ?_⟩⟩
    · rw [yes poll before]
      exact (decide_eq_true before).symm
    · exact decide_eq_false (Nat.lt_irrefl _)
    · by_contra beyond
      have := all (Nat.find no) (Nat.lt_of_not_le beyond)
      rw [Nat.find_spec no] at this
      cases this
  · have always : watch = .always := funext fun poll => Bool.of_not_eq_false (not_exists.1 no poll)
    refine ⟨max bound (polls (run .always)), ?_, fun count le => ⟨fun _ poll _ => ?_, fun _ => le_max_of_le_left le⟩⟩
    · rw [always, h.eq_of_enough (Nat.zero_le _) (le_max_right _ _)]
    · rw [always]
      rfl

end Watched

end NetworkAnalysis
