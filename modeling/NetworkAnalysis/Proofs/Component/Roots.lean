import NetworkAnalysis.Proofs.Component.Interruption
import NetworkAnalysis.Proofs.Component.Simulation
import NetworkAnalysis.Proofs.Fractions

/-!
# Roots of the component search

The search starts anew from a node that nothing before it has led to. So the roots are the nodes that no node of a
smaller number reaches, however the search goes on inside a root. A root that the search is in stays on the stack; it
is put into a component with the last step of its own frame, so that the roots that are finished are those with a
component. One fraction is announced for each of them.
-/

namespace NetworkAnalysis.Component

variable {n : Nat} {neighbours : Fin n → List (Fin n)}

/-- No node of a smaller number reaches a node, so that a search from all nodes in order starts from it. -/
def IsRoot (neighbours : Fin n → List (Fin n)) (v : Fin n) : Prop :=
  ∀ u < v, ¬Reaches neighbours u v

namespace Search

variable {s : Search n} {frame : Frame n} {rest : List (Frame n)} {sources : List (Fin n)}

/-! ## Counting discovered nodes -/

/-- The counter says how many nodes are discovered. -/
def Tallied (s : Search n) : Prop :=
  s.counter + s.index.count none = n

theorem tallied_start : (start : Search n).Tallied := by
  show 0 + (Table.replicate none : Table n (Option Nat)).count none = n
  rw [Table.count_replicate_self, Nat.zero_add]

theorem Tallied.counter_le (h : s.Tallied) : s.counter ≤ n := by
  unfold Tallied at h
  omega

theorem Tallied.enter (h : s.Tallied) {node : Fin n} (new : s.index[node] = none) :
    (s.enter neighbours node).Tallied := by
  have counted := Table.count_set_add_one (x := some s.counter) new (by simp)
  unfold Tallied at h ⊢
  show s.counter + 1 + (s.index.set node (some s.counter)).count none = n
  omega

theorem Tallied.look (h : s.Tallied) (node next : Fin n) : (s.look neighbours node next).Tallied := by
  unfold Search.look
  split
  · next new => exact h.enter new
  · split <;> exact h

theorem counter_close (node : Fin n) : (s.close node).counter = s.counter := by
  unfold close
  split <;> rfl

theorem counter_handOn (node : Fin n) : (s.handOn node).counter = s.counter := by
  unfold handOn
  split <;> rfl

theorem Tallied.advance (h : s.Tallied) : (s.advance neighbours frame rest).Tallied := by
  unfold Search.advance
  split
  · dsimp only
    split
    · exact Tallied.look (s := { s with frames := { frame with cursor := frame.cursor + 1 } :: rest }) h _ _
    · exact h
  · unfold Tallied
    rw [leave, index_handOn, counter_handOn, index_close, counter_close]
    exact h

theorem counter_le_advance : s.counter ≤ (s.advance neighbours frame rest).counter := by
  unfold Search.advance
  split
  · dsimp only
    split
    · unfold Search.look
      split
      · exact Nat.le_succ _
      · split <;> exact Nat.le_refl _
    · exact Nat.le_refl _
  · rw [leave, counter_handOn, counter_close]

/-- However long a search goes on, it counts all discovered nodes, of which there are never less. -/
theorem Tallied.drain (h : s.Tallied) (neighbours : Fin n → List (Fin n)) (watch : Watch) :
    (s.drain neighbours watch).1.Tallied ∧ s.counter ≤ (s.drain neighbours watch).1.counter := by
  fun_induction Search.drain neighbours watch s with
  | case1 s idle => exact ⟨h, Nat.le_refl _⟩
  | case2 s frame rest frames stop => exact ⟨h, Nat.le_refl _⟩
  | case3 s frame rest frames more ih =>
    obtain ⟨tallied, grown⟩ := ih (Tallied.advance (s := { s with polls := s.polls + 1 }) h)
    exact ⟨tallied, (counter_le_advance (s := { s with polls := s.polls + 1 })).trans grown⟩

/-! ## What roots lead to -/

/-- Every discovered node is reached from one of the nodes in `sources`. -/
def LedTo (neighbours : Fin n → List (Fin n)) (sources : List (Fin n)) (s : Search n) : Prop :=
  ∀ v : Fin n, s.index[v] ≠ none → ∃ root ∈ sources, Reaches neighbours root v

theorem LedTo.mono (h : s.LedTo neighbours sources) {more : List (Fin n)} (fewer : sources ⊆ more) :
    s.LedTo neighbours more := by
  intro v found
  obtain ⟨root, member, reaches⟩ := h v found
  exact ⟨root, fewer member, reaches⟩

theorem LedTo.enter (h : s.LedTo neighbours sources) {node : Fin n}
    (reached : ∃ root ∈ sources, Reaches neighbours root node) :
    (s.enter neighbours node).LedTo neighbours sources := by
  intro v found
  rw [index_enter] at found
  split at found
  · next same => exact same ▸ reached
  · exact h v found

theorem LedTo.advance (h : s.LedTo neighbours sources) (sound : s.Sound neighbours)
    (frames : s.frames = frame :: rest) : (s.advance neighbours frame rest).LedTo neighbours sources := by
  have laid : Laid neighbours (frame :: rest) s.buffer.toList := frames ▸ sound.laid
  have top : s.index[frame.node] ≠ none :=
    sound.stacked.index_ne_none (sound.stacked.mem_stack (top_mem_active frames))
  unfold Search.advance
  split
  · dsimp only
    split
    · next next found =>
      rw [← Array.getElem?_toList, laid.getElem?_cursor] at found
      obtain ⟨root, member, reaches⟩ := h frame.node top
      unfold Search.look
      split
      · exact LedTo.enter (s := { s with frames := { frame with cursor := frame.cursor + 1 } :: rest }) h
          ⟨root, member, reaches.tail (List.mem_of_getElem? found)⟩
      · split <;> exact h
    · exact h
  · unfold LedTo
    rw [leave, index_handOn, index_close]
    exact h

theorem LedTo.drain (h : s.LedTo neighbours sources) (sound : s.Sound neighbours) (watch : Watch) :
    (s.drain neighbours watch).1.LedTo neighbours sources := by
  fun_induction Search.drain neighbours watch s with
  | case1 s idle => exact h
  | case2 s frame rest frames stop => exact h
  | case3 s frame rest frames more ih =>
    have polled := sound.poll (s.polls + 1)
    exact ih (LedTo.advance (s := { s with polls := s.polls + 1 }) h polled frames) (polled.advance frames)

/-- A search that has frames has its root at the bottom of them. -/
def Under (root : Fin n) (s : Search n) : Prop :=
  s.frames ≠ [] → s.active.getLast? = some root

theorem under_enter {root : Fin n} (idle : s.frames = []) : (s.enter neighbours root).Under root := by
  intro _
  show (root :: s.active).getLast? = some root
  rw [active, idle]
  rfl

theorem Under.advance {root : Fin n} (h : s.Under root) (frames : s.frames = frame :: rest) :
    (s.advance neighbours frame rest).Under root := by
  have bottom : (frame.node :: rest.map Frame.node).getLast? = some root := by
    rw [← active_eq frames]
    exact h (by rw [frames]; exact List.cons_ne_nil _ _)
  unfold Search.advance
  split
  · dsimp only
    split
    · unfold Search.look
      split
      · intro _
        show (_ :: frame.node :: rest.map Frame.node).getLast? = some root
        rwa [List.getLast?_cons_cons]
      · split <;> exact fun _ => bottom
    · exact fun _ => bottom
  · intro busy
    rw [frames_leave] at busy
    rw [active, frames_leave]
    obtain ⟨parent, below, rfl⟩ := List.exists_cons_of_ne_nil busy
    rwa [List.map_cons, List.getLast?_cons_cons] at bottom

/-- A search that is stopped has its root on the stack. -/
theorem Under.of_stopped {root : Fin n} (h : s.Under root) (watch : Watch)
    (stopped : (s.drain neighbours watch).2 = false) : root ∈ (s.drain neighbours watch).1.active := by
  fun_induction Search.drain neighbours watch s with
  | case1 s idle => cases stopped
  | case2 s frame rest frames stop =>
    exact List.mem_of_getLast? (h (by rw [frames]; exact List.cons_ne_nil _ _))
  | case3 s frame rest frames more ih =>
    exact ih (Under.advance (s := { s with polls := s.polls + 1 }) h frames) stopped

/-! ## All roots -/

section All

variable {before nodes : List (Fin n)} {root : Fin n}

/-- What is known between two roots: the nodes `before` have been searched from, and nothing else has. -/
structure Between (neighbours : Fin n → List (Fin n)) (before : List (Fin n)) (s : Search n) : Prop where
  sound : s.Sound neighbours
  idle : s.frames = []
  tallied : s.Tallied
  searched : ∀ v ∈ before, s.index[v] ≠ none
  ledTo : s.LedTo neighbours before

theorem between_start (neighbours : Fin n → List (Fin n)) : (start : Search n).Between neighbours [] where
  sound := sound_start neighbours
  idle := rfl
  tallied := tallied_start
  searched := nofun
  ledTo := fun v found => absurd (Table.getElem_replicate _ v) found

/-- Between two roots the discovered nodes have components. -/
theorem Between.index_ne_none_iff (h : s.Between neighbours before) (v : Fin n) :
    s.index[v] ≠ none ↔ s.components[v] ≠ none := by
  rw [h.sound.stacked.discovered, h.sound.linked.stack_eq_nil h.idle, or_iff_right List.not_mem_nil]

/-- Between two roots the discovered nodes lead to discovered nodes only. -/
theorem Between.index_ne_none_of_reaches (h : s.Between neighbours before) {u v : Fin n} (found : s.index[u] ≠ none)
    (reaches : Reaches neighbours u v) : s.index[v] ≠ none := by
  rw [h.index_ne_none_iff] at found ⊢
  obtain ⟨c, its⟩ := Option.ne_none_iff_exists'.1 found
  obtain ⟨d, its', -⟩ := h.sound.closed.le_of_reaches reaches its
  rw [its']
  exact Option.some_ne_none d

/-- The nodes before a node are those with smaller numbers. -/
theorem mem_before_iff (all : before ++ root :: nodes = List.finRange n) (v : Fin n) : v ∈ before ↔ v < root := by
  have ordered := List.pairwise_lt_finRange n
  rw [← all, List.pairwise_append, List.pairwise_cons] at ordered
  obtain ⟨-, ⟨later, -⟩, earlier⟩ := ordered
  refine ⟨fun member => earlier v member root List.mem_cons_self, fun less => ?_⟩
  have listed : v ∈ before ++ root :: nodes := all ▸ List.mem_finRange v
  rcases List.mem_append.1 listed with member | member
  · exact member
  rcases List.mem_cons.1 member with rfl | member
  · exact absurd less (lt_irrefl v)
  · exact absurd (later v member) (lt_asymm less)

/-- The search starts anew from a node exactly if the node is a root. -/
theorem Between.index_eq_none_iff (h : s.Between neighbours before) (all : before ++ root :: nodes = List.finRange n) :
    s.index[root] = none ↔ IsRoot neighbours root := by
  constructor
  · intro new u less reaches
    exact h.index_ne_none_of_reaches (h.searched u ((mem_before_iff all u).2 less)) reaches new
  · intro isRoot
    by_contra found
    obtain ⟨u, member, reaches⟩ := h.ledTo root found
    exact isRoot u ((mem_before_iff all u).1 member) reaches

/-- A root from which the search has come to its end. -/
def Finished (neighbours : Fin n → List (Fin n)) (s : Search n) (v : Fin n) : Prop :=
  IsRoot neighbours v ∧ s.components[v] ≠ none

theorem Between.ledTo_drain (h : s.Between neighbours before) (new : s.index[root] = none) (watch : Watch) :
    ((s.enter neighbours root).drain neighbours watch).1.LedTo neighbours (before ++ [root]) := by
  refine LedTo.drain ?_ (h.sound.enter_root h.idle new) watch
  refine (h.ledTo.mono (List.subset_append_left _ _)).enter ⟨root, ?_, .refl _ _⟩
  exact List.mem_append_right _ (List.mem_singleton_self root)

theorem Between.drain (h : s.Between neighbours before) (new : s.index[root] = none) {watch : Watch} {t : Search n}
    (drained : (s.enter neighbours root).drain neighbours watch = (t, true)) :
    t.Between neighbours (before ++ [root]) ∧ s.counter ≤ t.counter := by
  obtain ⟨sound, idle, kept⟩ := (h.sound.enter_root h.idle new).drain watch
  obtain ⟨tallied, grown⟩ := (h.tallied.enter new).drain neighbours watch
  have ledTo := h.ledTo_drain new watch
  rw [drained] at sound idle kept tallied grown ledTo
  refine ⟨⟨sound, idle rfl, tallied, fun v member => kept v ?_, ledTo⟩, (Nat.le_succ _).trans grown⟩
  rw [index_enter]
  split
  · exact Option.some_ne_none _
  · next other =>
    rcases List.mem_append.1 member with earlier | same
    · exact h.searched v earlier
    · exact absurd (List.mem_singleton.1 same).symm other

/-- A search that is stopped in a root leaves it and all later nodes without a component, as far as they are roots. -/
theorem Between.not_finished (h : s.Between neighbours before) (new : s.index[root] = none) {watch : Watch}
    {t : Search n} (drained : (s.enter neighbours root).drain neighbours watch = (t, false))
    (all : before ++ [root] ++ nodes = List.finRange n) : ∀ v ∈ root :: nodes, ¬Finished neighbours t v := by
  have sound := ((h.sound.enter_root h.idle new).drain watch).1
  have ledTo := h.ledTo_drain new watch
  have onStack := (under_enter h.idle).of_stopped watch (congrArg Prod.snd drained)
  rw [drained] at sound ledTo onStack
  rintro v member ⟨isRoot, assigned⟩
  rcases List.mem_cons.1 member with rfl | later
  · exact assigned (sound.stacked.open' v (sound.stacked.mem_stack onStack))
  · obtain ⟨u, earlier, reaches⟩ := ledTo v ((sound.stacked.discovered v).2 (.inr assigned))
    have ordered := List.pairwise_lt_finRange n
    rw [← all, List.pairwise_append] at ordered
    exact isRoot u (ordered.2.2 u earlier v later) reaches

open Classical in
/-- One fraction is announced for every root that is finished. -/
theorem Between.roots {α : Type} [Scalar α] (h : s.Between neighbours before)
    (all : before ++ nodes = List.finRange n) (watch : Watch) {progress : Array α}
    (counted : Counted n s.counter progress.toList) :
    let result := s.roots neighbours watch nodes progress
    Counted n n result.2.1.toList
      ∧ result.2.1.size = progress.size + nodes.countP fun v => Finished neighbours result.1 v := by
  induction nodes generalizing s before progress with
  | nil => exact ⟨counted.later h.tallied.counter_le, rfl⟩
  | cons root rest ih =>
    have next : before ++ [root] ++ rest = List.finRange n := by rw [List.append_assoc, List.singleton_append, all]
    dsimp only
    by_cases new : s.index[root] = none
    · rw [roots_cons_of_new new]
      dsimp only
      rcases drained : (s.enter neighbours root).drain neighbours watch with ⟨t, finished⟩
      cases finished with
      | false =>
        rw [if_neg Bool.false_ne_true]
        refine ⟨counted.later h.tallied.counter_le, ?_⟩
        have unfinished := h.not_finished new drained next
        rw [List.countP_eq_zero.2 fun v member => by simpa using unfinished v member, Nat.add_zero]
      | true =>
        obtain ⟨between, grown⟩ := h.drain new drained
        obtain ⟨counted', announced⟩ := ih between next (counted.push grown)
        rw [if_pos rfl]
        dsimp only
        refine ⟨counted', ?_⟩
        -- The component of the root stays what it is while the search goes on with the later ones.
        have searched := between.searched root (List.mem_append_right _ (List.mem_singleton_self root))
        obtain ⟨c, its⟩ := Option.ne_none_iff_exists'.1 ((between.index_ne_none_iff root).1 searched)
        have kept := keeps_roots between.sound between.idle watch rest (progress.push (Scalar.fraction t.counter n))
          root c its
        rw [announced, Array.size_push, List.countP_cons_of_pos]
        · omega
        · rw [decide_eq_true_iff]
          exact ⟨(h.index_eq_none_iff all).1 new, kept ▸ Option.some_ne_none c⟩
    · have between : s.Between neighbours (before ++ [root]) :=
        { h with
          searched := by
            intro v member
            rcases List.mem_append.1 member with earlier | same
            · exact h.searched v earlier
            · rwa [List.mem_singleton.1 same]
          ledTo := h.ledTo.mono (List.subset_append_left _ _) }
      obtain ⟨counted', announced⟩ := ih between next counted
      rw [roots, if_pos new]
      refine ⟨counted', ?_⟩
      rw [announced, List.countP_cons_of_neg]
      rw [decide_eq_true_iff]
      exact fun finished => new ((h.index_eq_none_iff all).2 finished.1)

end All

end Search

end NetworkAnalysis.Component
