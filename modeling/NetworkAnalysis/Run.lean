import NetworkAnalysis.Error

/-!
# Runs of algorithms

A run asks again and again whether it may go on. A `Watch` answers by the number of the question, so
that a run is a function of its input and of its watch. A run that is told to stop leaves a partial
result, never an error: an `Outcome` is a value with the remark whether the run finished, and a
`Report` adds how often the run asked and which fractions of its work it announced.

An instance of an algorithm computes once: `Lifecycle` says in which state it is.
-/

namespace NetworkAnalysis

/-- Whether a run may go on, by the number of the question, counted from zero. -/
abbrev Watch := Nat → Bool

namespace Watch

/-- The watch that never stops a run. -/
def always : Watch := fun _ => true

/-- The watch that lets a run go on for its first `budget` questions. -/
def budget (budget : Nat) : Watch := fun poll => poll < budget

/-- The watch as it answers after the first `used` questions. -/
def after (watch : Watch) (used : Nat) : Watch := fun poll => watch (used + poll)

end Watch

/-- A stop sign that several holders share. -/
structure StopSign where
  /-- Whether a holder has put it up. -/
  raised : Bool := false
deriving DecidableEq, Repr

namespace StopSign

/-- The sign after a holder has asked for a stop. -/
def raise (_ : StopSign) : StopSign := ⟨true⟩

/-- Whether work may go on. -/
def running (s : StopSign) : Bool := !s.raised

end StopSign

/-- Whether work may go on at an instant, with a deadline given on the same clock. -/
def runningUntil (deadline now : Int) : Bool :=
  now < deadline

/-- A value that a run left, and whether the run finished. -/
structure Outcome (β : Type) where
  /-- The result, or the part of it that was done when the run stopped. -/
  value : β
  /-- Whether the run finished. -/
  completed : Bool
deriving DecidableEq, Repr

namespace Outcome

/-- The outcome of a run that finished. -/
def complete {β : Type} (value : β) : Outcome β := ⟨value, true⟩

/-- The outcome of a run that was stopped. -/
def partialResult {β : Type} (value : β) : Outcome β := ⟨value, false⟩

/-- The outcome with another value. -/
def map {β γ : Type} (f : β → γ) (o : Outcome β) : Outcome γ := ⟨f o.value, o.completed⟩

end Outcome

/-- All that can be observed of a run. -/
structure Report (α β : Type) extends Outcome β where
  /-- How often the run asked whether it may go on. -/
  polls : Nat
  /-- The fractions of its work that the run announced, in order. -/
  progress : List α
deriving Repr

/-- The states of an instance of an algorithm. -/
inductive Lifecycle where
  /-- Nothing has been computed. -/
  | ready
  /-- The computation was started. -/
  | computed
  /-- The working state was given up. -/
  | released
deriving DecidableEq, Repr

namespace Lifecycle

/-- The state after the start of the computation, which only a fresh instance allows. -/
def begin (state : Lifecycle) (algorithm : String) : Except Error Lifecycle :=
  match state with
  | ready => .ok computed
  | computed => .error (.alreadyComputed algorithm)
  | released => .error (.released algorithm)

/-- The state after the working state was given up. -/
def release (_ : Lifecycle) : Lifecycle := released

/-- Whether the working state was given up. -/
def isReleased (state : Lifecycle) : Bool :=
  state == released

end Lifecycle

end NetworkAnalysis
