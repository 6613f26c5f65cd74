import NetworkAnalysis.Proofs.Component.Closing

/-!
# Runs of the component search

Every step of the search keeps the invariant, and so does the search from every root. When it has come to
its end, no node is left on the stack.
-/

namespace NetworkAnalysis.Component.Search

variable {n : Nat} {neighbours : Fin n → List (Fin n)} {s : Search n}
  {looked : Fin n → Fin n → Prop} {frame : Frame n} {rest : List (Frame n)}

/-! ## The buffer -/

theorem Laid.enter (h : Laid neighbours s.frames s.buffer.toList) (node : Fin n) :
    Laid neighbours (s.enter neighbours node).frames (s.enter neighbours node).buffer.toList := by
  show Laid neighbours (_ :: s.frames) (s.buffer ++ neighbours node).toList
  rw [Array.toList_appendList]
  have size : (s.buffer ++ neighbours node).size = (s.buffer.toList ++ neighbours node).length := by
    rw [← Array.length_toList, Array.toList_appendList]
  refine ⟨s.buffer.toList, rfl, rfl, size, Nat.le_refl _, ?_, h⟩
  show s.buffer.size ≤ (s.buffer ++ neighbours node).size
  rw [size, List.length_append]
  exact Nat.le_add_right _ _

theorem Laid.leave {buffer : Array (Fin n)} (h : Laid neighbours (frame :: rest) buffer.toList) :
    Laid neighbours rest (buffer.shrink frame.start).toList := by
  obtain ⟨before, parts, start, -, -, -, laid⟩ := h
  rwa [Array.toList_shrink, parts, start, List.take_left]

/-- The cursor points at the next neighbour of the node. -/
theorem Laid.getElem?_cursor {buffer : List (Fin n)} (h : Laid neighbours (frame :: rest) buffer) :
    buffer[frame.cursor]? = (neighbours frame.node)[frame.cursor - frame.start]? := by
  obtain ⟨before, parts, start, -, above, -, -⟩ := h
  rw [parts, List.getElem?_append_right (start ▸ above), start]

theorem Laid.step {buffer : List (Fin n)} (h : Laid neighbours (frame :: rest) buffer)
    (more : frame.cursor < frame.stop) :
    Laid neighbours ({ frame with cursor := frame.cursor + 1 } :: rest) buffer := by
  obtain ⟨before, parts, start, stop, above, -, laid⟩ := h
  exact ⟨before, parts, start, stop, Nat.le_succ_of_le above, more, laid⟩

/-- A frame has as many places as its node has neighbours, and its cursor is at one of them or behind the last. -/
theorem Laid.bounds {buffer : List (Fin n)} (h : Laid neighbours (frame :: rest) buffer) :
    frame.stop = frame.start + (neighbours frame.node).length ∧ frame.start ≤ frame.cursor
      ∧ frame.cursor ≤ frame.stop := by
  obtain ⟨before, parts, start, stop, above, below, -⟩ := h
  refine ⟨?_, above, below⟩
  rw [stop, parts, List.length_append, start]

/-! ## What has been looked at -/

/-- A step of the cursor looks at one more neighbour. -/
theorem Looked.step (frames : s.frames = frame :: rest)
    (laid : Laid neighbours s.frames s.buffer.toList) {next : Fin n}
    (found : s.buffer[frame.cursor]? = some next) {v w : Fin n}
    (look : Looked neighbours { s with frames := { frame with cursor := frame.cursor + 1 } :: rest } v w) :
    Looked neighbours s v w ∨ (v = frame.node ∧ w = next) := by
  obtain ⟨member, cursors⟩ := look
  rw [frames] at laid
  have above : frame.start ≤ frame.cursor := by
    obtain ⟨_, _, _, _, above, _⟩ := laid
    exact above
  rw [← Array.getElem?_toList, laid.getElem?_cursor] at found
  by_cases same : v = frame.node
  · subst same
    have taken := cursors _ List.mem_cons_self rfl
    rw [show frame.cursor + 1 - frame.start = frame.cursor - frame.start + 1 by omega,
      List.take_add_one, found, List.mem_append] at taken
    rcases taken with before | last
    · refine .inl ⟨member, fun other listed itsNode => ?_⟩
      rw [frames] at listed
      rcases List.mem_cons.1 listed with rfl | below
      · exact before
      · exact cursors other (List.mem_cons_of_mem _ below) itsNode
    · exact .inr ⟨rfl, List.mem_singleton.1 last⟩
  · refine .inl ⟨member, fun other listed itsNode => ?_⟩
    rw [frames] at listed
    rcases List.mem_cons.1 listed with rfl | below
    · exact absurd itsNode.symm same
    · exact cursors other (List.mem_cons_of_mem _ below) itsNode

/-- At the end of a frame, all neighbours of the nodes from its node on have been looked at. -/
theorem Sound.complete (h : s.Sound neighbours) (frames : s.frames = frame :: rest)
    (done : ¬frame.cursor < frame.stop) :
    ∀ v ∈ s.stack, s.number frame.node ≤ s.number v → ∀ w ∈ neighbours v, Looked neighbours s v w := by
  intro v member from' w neighbour
  have laid := h.laid
  rw [frames] at laid
  obtain ⟨stop, -, -⟩ := laid.bounds
  have nodup := h.stacked.active_nodup
  rw [active_eq frames] at nodup
  refine ⟨neighbour, fun other listed itsNode => ?_⟩
  have active : v ∈ s.active := itsNode ▸ List.mem_map_of_mem listed
  have top : v = frame.node := h.stacked.eq_of_number member
    (h.stacked.mem_stack (by rw [active_eq frames]; exact List.mem_cons_self))
    (Nat.le_antisymm (h.stacked.number_le_top frames active) from')
  rw [frames] at listed
  rcases List.mem_cons.1 listed with rfl | below
  · have whole : (neighbours v).length ≤ other.cursor - other.start := by
      rw [itsNode] at stop
      omega
    rwa [List.take_of_length_le whole]
  · refine absurd ?_ (List.nodup_cons.1 nodup).1
    rw [← top, ← itsNode]
    exact List.mem_map_of_mem below

/-! ## Steps -/

theorem Stacked.withFrames (h : s.Stacked) {frames : List (Frame n)}
    (same : frames.map Frame.node = s.active) : Stacked { s with frames } :=
  { h with
    frames := by
      show (frames.map Frame.node).Sublist s.stack
      rw [same]
      exact h.frames }

theorem Linked.withFrames (h : s.Linked neighbours looked) {frames : List (Frame n)}
    (same : frames.map Frame.node = s.active) : Linked neighbours looked { s with frames } := by
  have active : Search.active { s with frames } = s.active := same
  refine { h with left := ?_, below := ?_, handed := ?_ }
  · rw [active]
    exact h.left
  · rw [active]
    exact h.below
  · rw [active]
    exact h.handed

theorem buffer_close (node : Fin n) : (s.close node).buffer = s.buffer := by
  unfold close
  split <;> rfl

/-- Looking at the next neighbour keeps the invariant. -/
theorem Sound.look (h : s.Sound neighbours) (frames : s.frames = frame :: rest)
    (more : frame.cursor < frame.stop) {next : Fin n}
    (found : s.buffer[frame.cursor]? = some next) :
    (look neighbours { s with frames := { frame with cursor := frame.cursor + 1 } :: rest }
      frame.node next).Sound neighbours := by
  have same : (({ frame with cursor := frame.cursor + 1 } : Frame n) :: rest).map Frame.node
      = s.active := (active_eq frames).symm
  have stacked := h.stacked.withFrames same
  have linked := h.linked.withFrames same
  have laid : Laid neighbours (frame :: rest) s.buffer.toList := frames ▸ h.laid
  have neighbour : next ∈ neighbours frame.node := by
    rw [← Array.getElem?_toList, laid.getElem?_cursor] at found
    exact List.mem_of_getElem? found
  have top := top_mem_active frames
  have step := fun {v w} => Looked.step (v := v) (w := w) frames h.laid found
  unfold Search.look
  split
  · next new =>
    refine ⟨stacked.enter new, linked.enter stacked new ?_ ?_ ?_, { h.closed with }, ?_⟩
    · intro f active
      have active' : f ∈ s.active := same ▸ active
      exact (h.linked.below f active' _ (h.stacked.mem_stack top)
        (h.stacked.number_le_top frames active')).tail neighbour
    · rintro v - w ⟨member, cursors⟩
      exact (step ⟨member, fun other listed => cursors other (List.mem_cons_of_mem _ listed)⟩).imp_right
        And.right
    · rintro w ⟨-, cursors⟩
      have before := cursors _ List.mem_cons_self rfl
      rw [Nat.sub_self] at before
      cases before
    · exact Laid.enter (s := { s with frames := { frame with cursor := frame.cursor + 1 } :: rest })
        (laid.step more) next
  · next number numbered =>
    split
    · next onStack =>
      have itsNumber : s.number next = number := number_of_index numbered
      refine ⟨stacked.lower _ _, ?_, { h.closed with }, laid.step more⟩
      rw [← itsNumber]
      exact linked.lower stacked (List.mem_cons_self (a := frame.node)) ((h.stacked.onStack next).1 onStack)
        ((Reaches.refl _ _).tail neighbour) fun v _ w look => step look
    · next offStack =>
      refine ⟨stacked, ?_, { h.closed with }, laid.step more⟩
      refine { linked with seen := ?_, back := ?_ }
      · intro v member w look
        rcases step look with before | ⟨-, rfl⟩
        · exact h.linked.seen v member w before
        · intro unseen
          rw [unseen] at numbered
          cases numbered
      · intro v member w member' look
        rcases step look with before | ⟨-, rfl⟩
        · exact h.linked.back v member w member' before
        · exact absurd ((h.stacked.onStack w).2 member') offStack

/-- A relationship of a node without the topmost frame was looked at before, if it counts as looked at when
this frame is gone. -/
theorem Looked.leave (frames : s.frames = frame :: rest) {t : Search n} (frames' : t.frames = rest)
    {v w : Fin n} (other : v ≠ frame.node) (look : Looked neighbours t v w) :
    Looked neighbours s v w := by
  refine ⟨look.1, fun entry listed itsNode => ?_⟩
  rw [frames] at listed
  rcases List.mem_cons.1 listed with rfl | below
  · exact absurd itsNode.symm other
  · exact look.2 entry (frames' ▸ below) itsNode

/-- Leaving a frame whose node is the first of a component keeps the invariant. -/
theorem Sound.leave_first (h : s.Sound neighbours) (frames : s.frames = frame :: rest)
    (done : ¬frame.cursor < frame.stop) (first : s.index[frame.node] = some s.lowlink[frame.node]) :
    (s.leave frame rest).Sound neighbours := by
  have top := top_mem_active frames
  have change := closedFrom_close h.stacked frames first (s.buffer.shrink frame.start)
  have popped := h.linked.popped h.stacked frames first (h.complete frames done)
  have buffer := buffer_close (s := { s with frames := rest, buffer := s.buffer.shrink frame.start })
    frame.node
  unfold leave
  generalize close { s with frames := rest, buffer := s.buffer.shrink frame.start } frame.node = t
    at change buffer ⊢
  have stacked := h.stacked.closedFrom frames change
  have sound : t.Sound neighbours := by
    refine ⟨stacked, ?_, h.closed.closedFrom h.stacked (h.stacked.mem_stack top) popped change, ?_⟩
    · refine h.linked.closedFrom frames first change fun v member w look => ?_
      refine look.leave frames change.frames ?_
      rintro rfl
      exact Nat.lt_irrefl _ (change.mem_stack.1 member).2
    · rw [change.frames, buffer]
      exact Laid.leave (frames ▸ h.laid)
  -- handing on the low link of the first node of a component changes nothing
  unfold handOn
  split
  · exact sound
  · next parent below frames' =>
    have member := stacked.mem_stack (top_mem_active frames')
    rw [lower_eq_self]
    · exact sound
    · have less := (change.mem_stack.1 member).2
      have low := h.linked.low_le parent.node (change.mem_stack.1 member).1
      have itsLow := number_of_index first
      rw [change.lowlink]
      omega

/-- Leaving any other frame keeps the invariant. -/
theorem Sound.leave_later (h : s.Sound neighbours) (frames : s.frames = frame :: rest)
    (done : ¬frame.cursor < frame.stop) (later : s.index[frame.node] ≠ some s.lowlink[frame.node]) :
    (s.leave frame rest).Sound neighbours := by
  have top := top_mem_active frames
  have onStack := h.stacked.mem_stack top
  have above : s.lowlink[frame.node] < s.number frame.node := by
    refine Nat.lt_of_le_of_ne (h.linked.low_le _ onStack) fun same => later ?_
    obtain ⟨number, numbered⟩ := Option.ne_none_iff_exists'.1 (h.stacked.index_ne_none onStack)
    rw [same, number_of_index numbered, numbered]
  have laid : Laid neighbours rest (s.buffer.shrink frame.start).toList := Laid.leave (frames ▸ h.laid)
  have stacked := h.stacked.drop frames (s.buffer.shrink frame.start)
  -- what counts as looked at without the frame was looked at before
  have fewer : ∀ v ∈ s.stack, ∀ w,
      Looked neighbours { s with frames := rest, buffer := s.buffer.shrink frame.start } v w →
        Looked neighbours s v w := by
    intro v member w look
    by_cases same : v = frame.node
    · exact h.complete frames done v member (same ▸ Nat.le_refl _) w look.1
    · exact look.leave frames rfl same
  unfold leave close
  rw [if_neg later]
  unfold handOn
  cases rest with
  | nil => exact ⟨stacked, h.linked.drop h.stacked frames above nofun fewer _, { h.closed with }, laid⟩
  | cons parent rest =>
    have active : parent.node ∈ s.active := by
      rw [active_eq frames]
      exact List.mem_cons_of_mem _ List.mem_cons_self
    have other : parent.node ≠ frame.node := by
      have nodup := h.stacked.active_nodup
      rw [active_eq frames] at nodup
      intro same
      exact (List.nodup_cons.1 nodup).1 (same ▸ List.mem_cons_self)
    obtain ⟨target, member, itsNumber, reach⟩ := h.linked.low_reached _ onStack
    have there : Reaches neighbours parent.node target :=
      (h.linked.below _ active _ onStack (h.stacked.number_le_top frames active)).trans reach
    have lowered : (s.lower parent.node (s.number target)).Linked neighbours (Looked neighbours s) := by
      refine h.linked.lower h.stacked active member there ?_
      intro _ _ _ look
      exact .inl look
    have same : (s.lower parent.node (s.number target)).lowlink[frame.node] = s.lowlink[frame.node] := by
      rw [lowlink_lower, if_neg other]
    have low : (s.lower parent.node (s.number target)).lowlink[parent.node] ≤ s.lowlink[frame.node] := by
      rw [lowlink_lower, if_pos rfl, itsNumber]
      exact Nat.min_le_right _ _
    refine ⟨stacked.lower _ _, ?_, { h.closed with }, laid⟩
    rw [← itsNumber]
    refine lowered.drop (h.stacked.lower _ _) frames ?_ ?_ fewer (s.buffer.shrink frame.start)
    · rw [same]
      exact above
    · rintro _ ⟨⟩
      rw [same]
      exact low

/-- Every step keeps the invariant. -/
theorem Sound.advance (h : s.Sound neighbours) (frames : s.frames = frame :: rest) :
    (s.advance neighbours frame rest).Sound neighbours := by
  have laid : Laid neighbours (frame :: rest) s.buffer.toList := frames ▸ h.laid
  unfold Search.advance
  by_cases more : frame.cursor < frame.stop
  · rw [if_pos more]
    obtain ⟨_, _, _, stop, _, _, _⟩ := laid
    have inside : frame.cursor < s.buffer.size := by
      rwa [stop, Array.length_toList] at more
    have found := Array.getElem?_eq_getElem inside
    simp only [found]
    exact h.look frames more found
  · rw [if_neg more]
    by_cases first : s.index[frame.node] = some s.lowlink[frame.node]
    · exact h.leave_first frames more first
    · exact h.leave_later frames more first

/-! ## Whole runs -/

/-- What one search has discovered, another has discovered too. -/
def Within (s t : Search n) : Prop :=
  ∀ v : Fin n, s.index[v] ≠ none → t.index[v] ≠ none

theorem Within.of_eq {t : Search n} (same : t.index = s.index) : s.Within t :=
  fun _ found => same ▸ found

theorem Within.trans {t u : Search n} (first : s.Within t) (second : t.Within u) : s.Within u :=
  fun v found => second v (first v found)

theorem within_enter (node : Fin n) : s.Within (s.enter neighbours node) := by
  intro v found
  rw [index_enter]
  split
  · exact Option.some_ne_none _
  · exact found

theorem within_look (node next : Fin n) : s.Within (s.look neighbours node next) := by
  unfold Search.look
  split
  · exact within_enter next
  · split <;> exact .of_eq rfl

theorem within_advance : s.Within (s.advance neighbours frame rest) := by
  unfold Search.advance
  split
  · dsimp only
    split
    · exact within_look
        (s := { s with frames := { frame with cursor := frame.cursor + 1 } :: rest }) _ _
    · exact .of_eq rfl
  · refine .of_eq ?_
    rw [leave, index_handOn, index_close]

theorem Sound.poll (h : s.Sound neighbours) (polls : Nat) : Sound neighbours { s with polls } :=
  ⟨{ h.stacked with }, { h.linked with }, { h.closed with }, h.laid⟩

/-- However long a search goes on, it keeps the invariant; if it was not stopped, no frame is open. -/
theorem Sound.drain (h : s.Sound neighbours) (watch : Watch) :
    (s.drain neighbours watch).1.Sound neighbours
      ∧ ((s.drain neighbours watch).2 = true → (s.drain neighbours watch).1.frames = [])
      ∧ s.Within (s.drain neighbours watch).1 := by
  fun_induction Search.drain neighbours watch s with
  | case1 s idle => exact ⟨h, fun _ => idle, .of_eq rfl⟩
  | case2 s frame rest frames stop => exact ⟨h.poll _, nofun, .of_eq rfl⟩
  | case3 s frame rest frames more ih =>
    obtain ⟨sound, idle, kept⟩ := ih ((h.poll _).advance frames)
    exact ⟨sound, idle, (within_advance (s := { s with polls := s.polls + 1 })).trans kept⟩

theorem drain_always (neighbours : Fin n → List (Fin n)) (s : Search n) :
    (s.drain neighbours .always).2 = true := by
  fun_induction Search.drain neighbours .always s with
  | case1 s idle => rfl
  | case2 s frame rest frames stop => cases stop
  | case3 s frame rest frames more ih => exact ih

/-- A root from which the search starts anew is discovered. -/
theorem Sound.enter_root (h : s.Sound neighbours) (idle : s.frames = []) {root : Fin n}
    (new : s.index[root] = none) : (s.enter neighbours root).Sound neighbours := by
  have empty := h.linked.stack_eq_nil idle
  have inactive : s.active = [] := by rw [active, idle, List.map_nil]
  refine ⟨h.stacked.enter new, h.linked.enter h.stacked new ?_ ?_ ?_, { h.closed with }, h.laid.enter root⟩
  · rw [inactive]
    intro f member
    cases member
  · rw [empty]
    intro v member
    cases member
  · rintro w ⟨-, cursors⟩
    have before := cursors _ List.mem_cons_self rfl
    rw [Nat.sub_self] at before
    cases before

/-- The search from every root keeps the invariant; if it was not stopped, all roots are discovered. -/
theorem Sound.roots {α : Type} [Scalar α] (h : s.Sound neighbours) (idle : s.frames = []) (watch : Watch)
    (nodes : List (Fin n)) (progress : Array α) :
    (s.roots neighbours watch nodes progress).1.Sound neighbours
      ∧ s.Within (s.roots neighbours watch nodes progress).1
      ∧ ((s.roots neighbours watch nodes progress).2.2 = true →
        (s.roots neighbours watch nodes progress).1.frames = []
          ∧ ∀ v ∈ nodes, (s.roots neighbours watch nodes progress).1.index[v] ≠ none) := by
  fun_induction Search.roots neighbours watch nodes s progress with
  | case1 s progress => exact ⟨h, .of_eq rfl, fun _ => ⟨idle, nofun⟩⟩
  | case2 root rest s progress found ih =>
    obtain ⟨sound, kept, ended⟩ := ih h idle
    refine ⟨sound, kept, fun completed => ⟨(ended completed).1, ?_⟩⟩
    exact List.forall_mem_cons.2 ⟨kept root found, (ended completed).2⟩
  | case3 root rest s progress new t drained =>
    have run := (h.enter_root idle (not_not.1 new)).drain watch
    rw [drained] at run
    exact ⟨run.1, (within_enter root).trans run.2.2, nofun⟩
  | case4 root rest s progress new t drained ih =>
    have run := (h.enter_root idle (not_not.1 new)).drain watch
    rw [drained] at run
    obtain ⟨sound, kept, ended⟩ := ih run.1 (run.2.1 rfl)
    refine ⟨sound, (within_enter root).trans (run.2.2.trans kept), fun completed =>
      ⟨(ended completed).1, List.forall_mem_cons.2 ⟨?_, (ended completed).2⟩⟩⟩
    refine run.2.2.trans kept root ?_
    rw [index_enter, if_pos rfl]
    exact Option.some_ne_none _

theorem roots_always {α : Type} [Scalar α] (neighbours : Fin n → List (Fin n)) (nodes : List (Fin n))
    (s : Search n) (progress : Array α) : (s.roots neighbours .always nodes progress).2.2 = true := by
  fun_induction Search.roots neighbours .always nodes s progress with
  | case1 s progress => rfl
  | case2 root rest s progress found ih => exact ih
  | case3 root rest s progress new t drained =>
    have ended := drain_always neighbours (s.enter neighbours root)
    rw [drained] at ended
    cases ended
  | case4 root rest s progress new t drained ih => exact ih

/-- Everything that is known when the search from all nodes has come to its end. -/
structure Solved (neighbours : Fin n → List (Fin n)) (s : Search n) : Prop extends
    s.Closed neighbours where
  assigned : ∀ v : Fin n, ∃ c, s.components[v] = some c

theorem solved_roots (α : Type) [Scalar α] (neighbours : Fin n → List (Fin n)) (progress : Array α) :
    ((start : Search n).roots neighbours .always (List.finRange n) progress).1.Solved neighbours := by
  obtain ⟨sound, -, ended⟩ :=
    (sound_start neighbours).roots rfl .always (List.finRange n) progress
  obtain ⟨idle, all⟩ := ended (roots_always neighbours _ _ progress)
  refine { sound.closed with assigned := fun v => ?_ }
  rcases (sound.stacked.discovered v).1 (all v (List.mem_finRange v)) with onStack | assigned
  · rw [sound.linked.stack_eq_nil idle] at onStack
    cases onStack
  · exact Option.ne_none_iff_exists'.1 assigned

end NetworkAnalysis.Component.Search
