import NetworkAnalysis.Command.Session
import NetworkAnalysis.Proofs.Command.ValueFile

/-!
# What sessions give

A session is a step of a world with a state. `Session.Gives` is about steps that succeed: from every state that meets a
condition, the step gives a value, and it and the state after it meet another one. The rules follow the way in which
steps are put together. How a world keeps time is left open; all that matters is that looking at the clock does not
touch the file under a path (`World.Keeps`).
-/

namespace NetworkAnalysis

/-- A node is found by its label. -/
theorem IdMap.node?_label (ids : IdMap) (node : Fin ids.size) : ids.node? (ids.label node) = some node := by
  have listed : ids.label node ∈ ids.labels.toList := IdMap.mem_labels_iff.2 ⟨node, rfl⟩
  have found := ids.map_label_node? (ids.label node)
  rw [if_pos listed, Option.map_eq_some_iff] at found
  obtain ⟨other, numbered, same⟩ := found
  rw [numbered, ids.label_injective same]

namespace Command

variable {σ β γ : Type}

/-- Looking at the clock does not touch a condition. -/
def World.Timeless (world : World (StateM σ)) (holds : σ → Prop) : Prop :=
  ∀ w, holds w → holds (world.clock w).2

/-- A world in which a path can be written to, and what was written stays. -/
structure World.Keeps (world : World (StateM σ)) (path : String) (contents : σ → Option String) : Prop where
  clock : ∀ w, contents (world.clock w).2 = contents w
  write : ∀ text w, (world.write path text w).1 = .ok () ∧ contents (world.write path text w).2 = some text

namespace Session

/-- From every state that meets a condition, a step gives a value, which meets another condition with the state after
it. -/
def Gives (before : σ → Prop) (step : Session (StateM σ) β) (after : β → σ → Prop) : Prop :=
  ∀ stopwatch w, before w →
    ∃ value stopwatch' w', step stopwatch w = ((.ok value, stopwatch'), w') ∧ after value w'

variable {before : σ → Prop} {step : Session (StateM σ) β} {between : β → σ → Prop} {after : γ → σ → Prop}

namespace Gives

theorem pure {value : γ} (h : ∀ w, before w → after value w) : Gives before (Pure.pure value) after :=
  fun stopwatch w start => ⟨value, stopwatch, w, rfl, h w start⟩

theorem bind {next : β → Session (StateM σ) γ} (first : Gives before step between)
    (second : ∀ value, Gives (between value) (next value) after) : Gives before (step >>= next) after := by
  intro stopwatch w start
  obtain ⟨value, stopwatch', w', ran, middle⟩ := first stopwatch w start
  obtain ⟨value', stopwatch'', w'', ran', finish⟩ := second value stopwatch' w' middle
  refine ⟨value', stopwatch'', w'', ?_, finish⟩
  have unfolded : (step >>= next) stopwatch w
      = match step stopwatch w with
        | ((result, stopwatch), w) => ExceptT.bindCont next result stopwatch w := rfl
  rw [unfolded, ran]
  exact ran'

theorem outside {action : StateM σ γ} (h : ∀ w, before w → after (action w).1 (action w).2) :
    Gives before (Session.outside action) after :=
  fun stopwatch w start => ⟨(action w).1, stopwatch, (action w).2, rfl, h w start⟩

theorem weaken {after' : γ → σ → Prop} {step : Session (StateM σ) γ} (h : Gives before step after)
    (less : ∀ value w, after value w → after' value w) : Gives before step after' := by
  intro stopwatch w start
  obtain ⟨value, stopwatch', w', ran, finish⟩ := h stopwatch w start
  exact ⟨value, stopwatch', w', ran, less value w' finish⟩

theorem map {f : β → γ} (h : Gives before step fun value => after (f value)) : Gives before (f <$> step) after := by
  rw [map_eq_pure_bind]
  exact .bind h fun value => .pure fun w held => held

/-- What is known of a value before a step may be used about the step. -/
theorem assume {known : Prop} {step : Session (StateM σ) γ} (h : known → Gives before step after) :
    Gives (fun w => known ∧ before w) step after :=
  fun stopwatch w ⟨fact, start⟩ => h fact stopwatch w start

/-- A stage gives what its step gives, and its milliseconds. -/
theorem measure {world : World (StateM σ)} {stage : String} {after : β × Nat → σ → Prop}
    (timeless : world.Timeless before)
    (h : Gives before step fun value w => ∀ millis, after (value, millis) (world.clock w).2) :
    Gives before (Session.measure world stage step) after := by
  intro stopwatch w start
  obtain ⟨value, stopwatch', w', ran, finish⟩ := h stopwatch _ (timeless w start)
  have unfolded : Session.measure world stage step stopwatch w
      = match step stopwatch (world.clock w).2 with
        | ((result, stopwatch), w') =>
          ((result.map fun value => (value, ((world.clock w').1 - (world.clock w).1) / 1000000),
            stopwatch.record stage ((world.clock w').1 - (world.clock w).1)), (world.clock w').2) := rfl
  rw [unfolded, ran]
  exact ⟨_, _, _, rfl, finish _⟩

end Gives

theorem gives_orError (value : β) : Gives before (orError (.ok value)) fun result w => result = value ∧ before w :=
  .pure fun _ h => ⟨rfl, h⟩

/-! ## Steps under a deadline -/

section Deadline

variable {world : World (StateM σ)}

theorem bind_apply (action : StateM σ β) (next : β → StateM σ γ) (w : σ) :
    (action >>= next) w = next (action w).1 (action w).2 := rfl

/-- A run in a session is a run under some watch; without a deadline, no watch stops it. -/
def Ran (deadline : Option Nat) (run : Watch → β) (result : β) : Prop :=
  ∃ watch, result = run watch ∧ (deadline = none → watch = .always)

variable (timeless : world.Timeless before)

include timeless

theorem runUntil_spec (deadline : Nat) (polls : β → Nat) (run : Watch → β) (doublings budget : Nat) (w : σ)
    (h : before w) :
    (∃ watch, (runUntil world deadline polls run doublings budget w).1 = run watch)
      ∧ before (runUntil world deadline polls run doublings budget w).2 := by
  induction doublings generalizing budget w with
  | zero => exact ⟨⟨_, rfl⟩, h⟩
  | succ doublings ih =>
    rw [runUntil, pure_bind]
    split
    · exact ⟨⟨_, rfl⟩, h⟩
    · rw [bind_apply]
      split
      · exact ⟨⟨_, rfl⟩, timeless w h⟩
      · exact ih _ _ (timeless w h)

theorem gives_supervised (deadline : Option Nat) (polls : β → Nat) (run : Watch → β) :
    Gives before (supervised world deadline polls run) fun result w => Ran deadline run result ∧ before w := by
  refine .outside fun w h => ?_
  cases deadline with
  | none => exact ⟨⟨.always, rfl, fun _ => rfl⟩, h⟩
  | some deadline =>
    dsimp only
    rw [bind_apply]
    split
    · exact ⟨⟨_, rfl, nofun⟩, timeless w h⟩
    · obtain ⟨⟨watch, ran⟩, kept⟩ := runUntil_spec timeless deadline polls run 64 1024 _ (timeless w h)
      exact ⟨⟨watch, ran, nofun⟩, kept⟩

theorem gives_deadline (timeout : Option Nat) :
    Gives before (deadline world timeout) fun result w => (timeout = none → result = none) ∧ before w := by
  cases timeout with
  | none => exact .pure fun w h => ⟨fun _ => rfl, h⟩
  | some millis =>
    have looked : Gives before (outside world.clock) fun _ => before := .outside timeless
    exact .bind looked fun now => .pure fun w h => ⟨nofun, h⟩

end Deadline

/-! ## Nodes and files -/

theorem gives_nodeOf (g : Graph Float) (node : Fin g.size) :
    Gives before (nodeOf g (g.ids.label node)) fun result w => result = node ∧ before w := by
  rw [nodeOf, g.ids.node?_label]
  exact .pure fun w h => ⟨rfl, h⟩

theorem gives_nodesOf (g : Graph Float) (node : Option (Fin g.size)) :
    Gives before ((node.map g.ids.label).mapM (nodeOf g)) fun result w => result = node ∧ before w := by
  cases node with
  | none => exact .pure fun w h => ⟨rfl, h⟩
  | some node =>
    exact .map ((gives_nodeOf g node).weaken fun result w ⟨same, h⟩ => ⟨congrArg some same, h⟩)

/-- In a world that keeps what is written, a file for the values of the nodes holds the lines of an export, and what is
said about the file is true. -/
theorem gives_writeValues {world : World (StateM σ)} {path : String} {contents : σ → Option String}
    (keeps : world.Keeps path contents) (deadline : Option Nat) (ids : IdMap) (properties : List Exportable) :
    Gives (fun _ => True) (writeValues world (some path) deadline ids properties) fun result w =>
      ∃ file, Ran deadline (exportAll ids properties) file ∧ contents w = some file.text
        ∧ result.1 = some { path, written := file.written, completed := file.completed } := by
  unfold writeValues
  refine .measure (fun _ _ => trivial) ?_
  refine .bind (gives_supervised (fun _ _ => trivial) _ _ _) fun file => ?_
  refine .assume fun ran => ?_
  have kept : Gives (fun _ => True) (outside (world.write path file.text)) fun result w =>
      result = .ok () ∧ contents w = some file.text :=
    .outside fun w _ => keeps.write file.text w
  refine .bind kept fun result => .assume ?_
  rintro rfl
  exact .pure fun w held _ => ⟨file, ran, (keeps.clock w).trans held, rfl⟩

end Session

end Command

end NetworkAnalysis
