import NetworkAnalysis.Proofs.Component.Interruption
import NetworkAnalysis.Proofs.Component.Recursive

/-!
# The search with frames follows the recursion

A frame stands for a call of the recursion: its cursor for the neighbours that are left to look at, the frames
below it for the calls that wait. What one call does, the search does from the moment at which it opens the frame
until the frames below are the topmost ones again, whatever they are (`FollowsVisit`). It hands the low link on to
the frame below in the step that closes the component, the recursion after its call has come back.
-/

namespace NetworkAnalysis.Component

open Relation

variable {n : Nat} {neighbours : Fin n → List (Fin n)}

/-- Hands the low link of a node on to the node of the topmost frame. -/
def Descent.handOn (r : Descent n) (frames : List (Frame n)) (node : Fin n) : Descent n :=
  match frames with
  | [] => r
  | parent :: _ => r.lower parent.node (r.lowlink node)

namespace Search

variable {s t : Search n} {r : Descent n} {frame : Frame n} {rest : List (Frame n)}

/-- A search and a recursion have found the same. -/
structure Mirrors (s : Search n) (r : Descent n) : Prop where
  index : ∀ v : Fin n, s.index[v] = r.index v
  lowlink : ∀ v : Fin n, s.lowlink[v] = r.lowlink v
  stack : s.stack = r.stack
  components : ∀ v : Fin n, s.components[v] = r.component v
  componentCount : s.componentCount = r.componentCount
  counter : s.counter = r.counter

namespace Mirrors

theorem start : (start : Search n).Mirrors .start := by
  constructor <;> simp [Search.start, Descent.start]

theorem enter (h : s.Mirrors r) (node : Fin n) : (s.enter neighbours node).Mirrors (r.discover node) := by
  constructor
  case index =>
    intro v
    simp [index_enter, Descent.discover, Function.update_apply, h.index, h.counter, eq_comm]
  case lowlink =>
    intro v
    simp [lowlink_enter, Descent.discover, Function.update_apply, h.lowlink, h.counter, eq_comm]
  case stack => exact congrArg (node :: ·) h.stack
  case components => exact h.components
  case componentCount => exact h.componentCount
  case counter => exact congrArg (· + 1) h.counter

theorem lower (h : s.Mirrors r) (node : Fin n) (number : Nat) :
    (s.lower node number).Mirrors (r.lower node number) := by
  refine { h with lowlink := fun v => ?_ }
  simp [lowlink_lower, Descent.lower, Function.update_apply, h.lowlink, eq_comm]

theorem handOn (h : s.Mirrors r) (node : Fin n) : (s.handOn node).Mirrors (r.handOn s.frames node) := by
  unfold Search.handOn Descent.handOn
  cases s.frames with
  | nil => exact h
  | cons parent below =>
    rw [← h.lowlink]
    exact h.lower _ _

/-- A component is taken off the stack node by node, or cut off. -/
theorem close (h : s.Mirrors r) {node : Fin n} (onStack : node ∈ s.stack) :
    (s.close node).Mirrors (r.close node) := by
  unfold Search.close Descent.close
  rw [h.index, h.lowlink]
  split
  · obtain ⟨above, below, parts, notAbove⟩ := List.eq_append_cons_of_mem onStack
    obtain ⟨stack, tables⟩ := @popThrough_eq n node s.componentCount above below notAbove s.onStack s.components
    rw [← parts] at stack tables
    have different : ∀ v ∈ above, decide (v ≠ node) = true := by
      intro v member
      exact decide_eq_true fun same => notAbove (same ▸ member)
    have cut : r.stack.dropWhile (· ≠ node) = node :: below := by
      rw [← h.stack, parts, List.dropWhile_append_of_pos different]
      simp
    have taken : r.stack.takeWhile (· ≠ node) = above := by
      rw [← h.stack, parts, List.takeWhile_append_of_pos different]
      simp
    refine { h with stack := ?_, components := ?_, componentCount := ?_ }
    · rw [cut]
      exact stack
    · intro v
      refine (tables v).2.trans ?_
      simp only [taken, h.components, h.componentCount, or_comm, List.contains_iff_mem, List.mem_cons]
    · exact congrArg (· + 1) h.componentCount
  · exact h

theorem leave (h : s.Mirrors r) (onStack : frame.node ∈ s.stack) :
    (s.leave frame rest).Mirrors ((r.close frame.node).handOn rest frame.node) := by
  have cut : Mirrors { s with frames := rest, buffer := s.buffer.shrink frame.start } r := { h with }
  have handed := (cut.close onStack).handOn frame.node
  rwa [frames_close] at handed

end Mirrors

/-! ## Steps -/

/-- The watch is asked, and the topmost frame takes a step. -/
def Advances (neighbours : Fin n → List (Fin n)) (s t : Search n) : Prop :=
  ∃ frame rest, s.frames = frame :: rest ∧ t = { s with polls := s.polls + 1 }.advance neighbours frame rest

theorem Sound.advances (h : s.Sound neighbours) (step : s.Advances neighbours t) : t.Sound neighbours := by
  obtain ⟨frame, rest, frames, rfl⟩ := step
  exact (h.poll _).advance frames

theorem Sound.steps (h : s.Sound neighbours) (steps : ReflTransGen (Advances neighbours) s t) :
    t.Sound neighbours := by
  induction steps with
  | refl => exact h
  | tail _ step ih => exact ih.advances step

/-- A search ends where it ends after some steps. -/
theorem drain_of_steps (steps : ReflTransGen (Advances neighbours) s t) :
    s.drain neighbours .always = t.drain neighbours .always := by
  induction steps with
  | refl => rfl
  | tail _ step ih =>
    obtain ⟨frame, rest, frames, rfl⟩ := step
    rw [ih, drain_of_cons frames]
    rfl

/-- The search after the topmost frame has moved on to its next neighbour. -/
def moveOn (s : Search n) (frame : Frame n) (rest : List (Frame n)) : Search n :=
  { s with frames := { frame with cursor := frame.cursor + 1 } :: rest, polls := s.polls + 1 }

theorem Mirrors.moveOn (h : s.Mirrors r) (frame : Frame n) (rest : List (Frame n)) :
    (s.moveOn frame rest).Mirrors r :=
  { h with }

/-- What a frame looks at next is the first of the neighbours that are left. -/
theorem advances_look (h : s.Sound neighbours) (frames : s.frames = frame :: rest) {w : Fin n}
    {left : List (Fin n)} (next : (neighbours frame.node).drop (frame.cursor - frame.start) = w :: left) :
    s.Advances neighbours ((s.moveOn frame rest).look neighbours frame.node w)
      ∧ (neighbours frame.node).drop (frame.cursor + 1 - frame.start) = left := by
  have laid : Laid neighbours (frame :: rest) s.buffer.toList := frames ▸ h.laid
  have found : s.buffer[frame.cursor]? = some w := by
    rw [← Array.getElem?_toList, laid.getElem?_cursor, ← List.head?_drop, next]
    rfl
  obtain ⟨stop, above, -⟩ := laid.bounds
  have more : frame.cursor < frame.stop := by
    have length := congrArg List.length next
    rw [List.length_drop, List.length_cons] at length
    omega
  refine ⟨⟨frame, rest, frames, ?_⟩, ?_⟩
  · unfold advance
    rw [if_pos more]
    simp only [found]
    rfl
  · rw [Nat.sub_add_comm above, ← List.drop_drop, next]
    rfl

/-- A frame that has nothing left to look at is left. -/
theorem advances_leave (frames : s.frames = frame :: rest) (done : ¬frame.cursor < frame.stop) :
    s.Advances neighbours ({ s with polls := s.polls + 1 }.leave frame rest) := by
  refine ⟨frame, rest, frames, ?_⟩
  unfold advance
  rw [if_neg done]

theorem look_of_new {node w : Fin n} (new : s.index[w] = none) :
    s.look neighbours node w = s.enter neighbours w := by
  unfold look
  split
  · rfl
  · next found =>
    rw [new] at found
    cases found

theorem look_of_onStack {node w : Fin n} {number : Nat} (found : s.index[w] = some number)
    (onStack : s.onStack[w] = true) : s.look neighbours node w = s.lower node number := by
  unfold look
  split
  · next new =>
    rw [new] at found
    cases found
  · next found' =>
    obtain rfl := Option.some.inj (found'.symm.trans found)
    exact if_pos onStack

theorem look_of_offStack {node w : Fin n} (old : s.index[w] ≠ none) (offStack : ¬s.onStack[w] = true) :
    s.look neighbours node w = s := by
  unfold look
  split
  · next new => exact absurd new old
  · exact if_neg offStack

theorem frames_leave (s : Search n) (frame : Frame n) (rest : List (Frame n)) :
    (s.leave frame rest).frames = rest := by
  unfold leave handOn
  split <;> exact frames_close _ _

/-! ## Calls -/

/-- What a visit finds, a search finds from the moment at which it discovers the node until the frames below are the
topmost ones again. -/
def FollowsVisit (neighbours : Fin n → List (Fin n)) (r : Descent n) (v : Fin n) (new : r.index v = none) : Prop :=
  ∀ s : Search n, s.Mirrors r → (s.enter neighbours v).Sound neighbours →
    ∃ t, ReflTransGen (Advances neighbours) (s.enter neighbours v) t ∧ t.frames = s.frames
      ∧ t.Mirrors ((r.visit neighbours v new).1.handOn s.frames v)

/-- What a look at the neighbours that are left finds, a search finds until the cursor of the frame is at its end. -/
def FollowsAll (neighbours : Fin n → List (Fin n)) (r : Descent n) (v : Fin n) (left : List (Fin n)) : Prop :=
  ∀ (s : Search n) frame rest, s.Mirrors r → s.Sound neighbours →
    s.frames = frame :: rest → frame.node = v → (neighbours v).drop (frame.cursor - frame.start) = left →
      ∃ t, ReflTransGen (Advances neighbours) s t ∧ t.frames = { frame with cursor := frame.stop } :: rest
        ∧ t.Mirrors (r.visitAll neighbours v left).1

section Calls

variable {v w : Fin n} {left : List (Fin n)}

theorem FollowsAll.visit (new : r.index v = none) (all : FollowsAll neighbours (r.discover v) v (neighbours v)) :
    FollowsVisit neighbours r v new := by
  intro s h sound
  obtain ⟨t, steps, frames, mirrors⟩ := all _ _ s.frames (h.enter v) sound rfl rfl (by simp)
  have onStack := (sound.steps steps).stacked.mem_stack (top_mem_active frames)
  refine ⟨_, steps.tail (advances_leave frames (Nat.lt_irrefl _)), frames_leave _ _ _, ?_⟩
  rw [Descent.val_visit]
  exact Mirrors.leave (s := { t with polls := t.polls + 1 }) { mirrors with } onStack

theorem followsAll_nil (r : Descent n) (v : Fin n) : FollowsAll neighbours r v [] := by
  intro s frame rest h sound frames itsNode exhausted
  have laid : Laid neighbours (frame :: rest) s.buffer.toList := frames ▸ sound.laid
  obtain ⟨stop, above, below⟩ := laid.bounds
  have ended : frame.cursor = frame.stop := by
    have length := List.drop_eq_nil_iff.1 exhausted
    rw [itsNode] at stop
    omega
  have same : ({ frame with cursor := frame.stop } : Frame n) = frame :=
    congrArg (fun cursor => { frame with cursor }) ended.symm
  rw [Descent.val_visitAll_nil, same]
  exact ⟨s, .refl, frames, h⟩

/-- The steps that look at one neighbour go before those that look at the others. -/
theorem FollowsAll.after (others : FollowsAll neighbours r v left) (sound : s.Sound neighbours)
    (steps : ReflTransGen (Advances neighbours) s t) (h : t.Mirrors r)
    (frames : t.frames = { frame with cursor := frame.cursor + 1 } :: rest) (itsNode : frame.node = v)
    (rest' : (neighbours v).drop (frame.cursor + 1 - frame.start) = left) :
    ∃ t, ReflTransGen (Advances neighbours) s t ∧ t.frames = { frame with cursor := frame.stop } :: rest
      ∧ t.Mirrors (r.visitAll neighbours v left).1 := by
  obtain ⟨u, more, frames', mirrors⟩ := others t _ rest h (sound.steps steps) frames itsNode rest'
  exact ⟨u, steps.trans more, frames', mirrors⟩

theorem FollowsAll.cons_new (new : r.index w = none) (visited : FollowsVisit neighbours r w new)
    (others : FollowsAll neighbours
      ((r.visit neighbours w new).1.lower v ((r.visit neighbours w new).1.lowlink w)) v left) :
    FollowsAll neighbours r v (w :: left) := by
  intro s frame rest h sound frames itsNode next
  subst itsNode
  obtain ⟨step, rest'⟩ := advances_look sound frames next
  have moved := h.moveOn frame rest
  rw [look_of_new ((moved.index w).trans new)] at step
  obtain ⟨t, steps, frames', mirrors⟩ := visited _ moved (sound.advances step)
  rw [Descent.val_visitAll_of_new neighbours new]
  exact others.after sound (.head step steps) mirrors frames' rfl rest'

theorem FollowsAll.cons_open (old : r.index w ≠ none) (onStack : w ∈ r.stack)
    (others : FollowsAll neighbours (r.lower v ((r.index w).getD 0)) v left) :
    FollowsAll neighbours r v (w :: left) := by
  intro s frame rest h sound frames itsNode next
  subst itsNode
  obtain ⟨step, rest'⟩ := advances_look sound frames next
  obtain ⟨number, found⟩ := Option.ne_none_iff_exists'.1 old
  have moved := h.moveOn frame rest
  have onStack' : (s.moveOn frame rest).onStack[w] = true := (sound.stacked.onStack w).2 (h.stack ▸ onStack)
  rw [look_of_onStack ((moved.index w).trans found) onStack'] at step
  rw [Descent.val_visitAll_of_mem_stack neighbours old onStack]
  rw [found] at others ⊢
  exact others.after sound (.single step) (moved.lower _ _) rfl rfl rest'

theorem FollowsAll.cons_closed (old : r.index w ≠ none) (offStack : w ∉ r.stack)
    (others : FollowsAll neighbours r v left) : FollowsAll neighbours r v (w :: left) := by
  intro s frame rest h sound frames itsNode next
  subst itsNode
  obtain ⟨step, rest'⟩ := advances_look sound frames next
  have moved := h.moveOn frame rest
  have old' : (s.moveOn frame rest).index[w] ≠ none := (moved.index w).symm ▸ old
  have offStack' : ¬(s.moveOn frame rest).onStack[w] = true := fun found =>
    offStack (h.stack ▸ (sound.stacked.onStack w).1 found)
  rw [look_of_offStack old' offStack'] at step
  rw [Descent.val_visitAll_of_notMem_stack neighbours old offStack]
  exact others.after sound (.single step) moved rfl rfl rest'

end Calls

/-- Call by call, a search follows the recursion. The induction is that of the two functions. -/
theorem follows (neighbours : Fin n → List (Fin n)) :
    (∀ r v new, FollowsVisit neighbours r v new) ∧ ∀ r v left, FollowsAll neighbours r v left := by
  apply Descent.visit.mutual_induct neighbours (FollowsVisit neighbours) (FollowsAll neighbours)
  · intro r v new all
    exact all.visit new
  · exact followsAll_nil
  · intro r v w left new _ visited _ others
    exact others.cons_new new visited
  · intro r v w left old onStack others
    exact others.cons_open old (List.contains_iff_mem.1 onStack)
  · intro r v w left old offStack others
    exact others.cons_closed old (mt List.contains_iff_mem.2 offStack)

/-! ## Runs -/

/-- One step of a run: the topmost frame takes it, or the first node that is new becomes a root. -/
inductive Next (neighbours : Fin n → List (Fin n)) (s : Search n) : Search n → Prop
  | advance {t : Search n} (step : s.Advances neighbours t) : Next neighbours s t
  | root {root : Fin n} (idle : s.frames = []) (new : s.index[root] = none)
      (first : ∀ v < root, s.index[v] ≠ none) : Next neighbours s (s.enter neighbours root)

/-- A run comes from one search to another. -/
abbrev Runs (neighbours : Fin n → List (Fin n)) : Search n → Search n → Prop :=
  ReflTransGen (Next neighbours)

theorem next_unique : Relator.RightUnique (Next neighbours) := by
  intro s t u first second
  cases first with
  | advance step =>
    obtain ⟨frame, rest, frames, rfl⟩ := step
    cases second with
    | advance step =>
      obtain ⟨frame', rest', frames', rfl⟩ := step
      obtain ⟨rfl, rfl⟩ := List.cons.inj (frames.symm.trans frames')
      rfl
    | root idle =>
      rw [idle] at frames
      cases frames
  | @root v idle new first =>
    cases second with
    | advance step =>
      obtain ⟨frame, rest, frames, -⟩ := step
      rw [idle] at frames
      cases frames
    | @root w _ new' first' =>
      have same : v = w := by
        rcases lt_trichotomy v w with less | same | more
        · exact absurd new (first' v less)
        · exact same
        · exact absurd new' (first w more)
      rw [same]

theorem Sound.runs (h : s.Sound neighbours) (runs : Runs neighbours s t) : t.Sound neighbours := by
  induction runs with
  | refl => exact h
  | tail _ step ih =>
    cases step with
    | advance step => exact ih.advances step
    | root idle new => exact ih.enter_root idle new

/-- The part of the buffer that belongs to the topmost frame holds the neighbours of its node. -/
theorem Laid.extract {buffer : Array (Fin n)} (h : Laid neighbours (frame :: rest) buffer.toList) :
    (buffer.extract frame.start frame.stop).toList = neighbours frame.node := by
  obtain ⟨stop, -, -⟩ := h.bounds
  obtain ⟨before, parts, start, -⟩ := h
  rw [Array.toList_extract, List.extract_eq_take_drop, parts, stop, start, List.drop_left,
    Nat.add_sub_cancel_left, List.take_length]

theorem mem_before_of_lt {before nodes : List (Fin n)} {v root : Fin n}
    (all : List.finRange n = before ++ root :: nodes) (less : v < root) : v ∈ before := by
  have ordered := List.pairwise_lt_finRange n
  have member := List.mem_finRange v
  rw [all] at ordered member
  rcases List.mem_append.1 member with earlier | later
  · exact earlier
  · have above := (List.pairwise_cons.1 (List.pairwise_append.1 ordered).2.1).1
    rcases List.mem_cons.1 later with rfl | later
    · exact absurd less (lt_irrefl _)
    · exact absurd less (lt_asymm (above v later))

/-- Root by root, a search follows the recursion. -/
theorem Mirrors.roots {α : Type} [Scalar α] (sound : s.Sound neighbours) (idle : s.frames = []) (h : s.Mirrors r)
    {before nodes : List (Fin n)} (all : List.finRange n = before ++ nodes)
    (found : ∀ v ∈ before, s.index[v] ≠ none) (progress : Array α) :
    (s.roots neighbours .always nodes progress).1.Mirrors (nodes.foldl (Descent.visitRoot neighbours) r)
      ∧ Runs neighbours s (s.roots neighbours .always nodes progress).1 := by
  induction nodes generalizing s r before progress with
  | nil => exact ⟨h, .refl⟩
  | cons root nodes ih =>
    have all' : List.finRange n = (before ++ [root]) ++ nodes := by simp [all]
    by_cases new : s.index[root] = none
    · have entered := sound.enter_root idle new
      have new' : r.index root = none := (h.index root).symm.trans new
      obtain ⟨t, steps, frames, mirrors⟩ := (follows neighbours).1 r root new' s h entered
      rw [idle] at frames mirrors
      have drained : (s.enter neighbours root).drain neighbours .always = (t, true) :=
        (drain_of_steps steps).trans (drain_of_nil frames .always)
      have kept := (entered.drain .always).2.2
      rw [drained] at kept
      have discovered : t.index[root] ≠ none := by
        refine kept root ?_
        rw [index_enter, if_pos rfl]
        exact Option.some_ne_none _
      have found' : ∀ v ∈ before ++ [root], t.index[v] ≠ none :=
        List.forall_mem_append.2 ⟨fun v earlier => (within_enter root).trans kept v (found v earlier),
          List.forall_mem_singleton.2 discovered⟩
      obtain ⟨mirrors', runs⟩ :=
        ih (entered.steps steps) frames mirrors all' found' (progress.push (Scalar.fraction t.counter n))
      rw [roots_cons_of_new new, drained, List.foldl_cons, Descent.visitRoot, dif_pos new']
      refine ⟨mirrors', .head (.root idle new fun v less => found v (mem_before_of_lt all less)) ?_⟩
      exact (steps.lift id fun _ _ step => Next.advance step).trans runs
    · have found' : ∀ v ∈ before ++ [root], s.index[v] ≠ none :=
        List.forall_mem_append.2 ⟨found, List.forall_mem_singleton.2 new⟩
      have old : ¬r.index root = none := fun unseen => new ((h.index root).trans unseen)
      rw [Search.roots, if_pos new, List.foldl_cons, Descent.visitRoot, dif_neg old]
      exact ih sound idle h all' found' progress

theorem mirrors_roots (α : Type) [Scalar α] (neighbours : Fin n → List (Fin n)) (progress : Array α) :
    ((start : Search n).roots neighbours .always (List.finRange n) progress).1.Mirrors (Descent.run neighbours)
      ∧ Runs neighbours start ((start : Search n).roots neighbours .always (List.finRange n) progress).1 :=
  Mirrors.start.roots (sound_start neighbours) rfl (List.nil_append _).symm nofun progress

/-- A run goes on until it stands where the search from all nodes ends, and nothing comes after that. -/
theorem runs_roots (α : Type) [Scalar α] (neighbours : Fin n → List (Fin n)) (progress : Array α) :
    let final := ((start : Search n).roots neighbours .always (List.finRange n) progress).1
    (∀ s, Runs neighbours start s → Runs neighbours s final) ∧ ∀ t, ¬final.Next neighbours t := by
  intro final
  obtain ⟨-, -, ended⟩ := (sound_start neighbours).roots rfl .always (List.finRange n) progress
  obtain ⟨idle, all⟩ := ended (roots_always neighbours _ _ progress)
  have last : ∀ t, ¬final.Next neighbours t := by
    intro t step
    cases step with
    | advance step =>
      obtain ⟨frame, rest, frames, -⟩ := step
      rw [idle] at frames
      cases frames
    | root _ new => exact all _ (List.mem_finRange _) new
  refine ⟨fun s before => ?_, last⟩
  -- of two runs from one search, one goes on from the end of the other
  have whole := (mirrors_roots α neighbours progress).2
  rcases ReflTransGen.total_of_right_unique next_unique before whole with onward | back
  · exact onward
  · rcases ReflTransGen.cases_head back with same | ⟨t, step, -⟩
    · exact same ▸ .refl
    · exact absurd step (last t)

end Search

/-- The search numbers the nodes in the order of the recursion, and comes to the same low links and components. It
takes a step for every node and for every relationship, and whatever frame is the topmost one during the run, the
neighbours of its node stand in its part of the buffer. -/
theorem compute_mirrors {α : Type} [Scalar α] {g : Graph α} (loaded : g.Loaded) :
    let neighbours := g.neighbours .outgoing
    let final := (Search.start.roots neighbours .always (List.finRange g.size) (#[] : Array α)).1
    final.Mirrors (Descent.run neighbours)
      ∧ (∀ v : Fin g.size, (compute g .always).value.component? v = (Descent.run neighbours).component v)
      ∧ ((compute g .always).completed = true ∧ (compute g .always).polls = g.size + g.relationshipCount)
      ∧ (∀ s, Search.Runs neighbours .start s → Search.Runs neighbours s final
        ∧ ∀ frame rest, s.frames = frame :: rest →
          (s.buffer.extract frame.start frame.stop).toList = neighbours frame.node)
      ∧ ∀ t, ¬final.Next neighbours t := by
  intro neighbours final
  obtain ⟨mirrors, -⟩ := Search.mirrors_roots α neighbours #[]
  obtain ⟨runs, last⟩ := Search.runs_roots α neighbours #[]
  have total := Search.polls_roots_always α neighbours #[]
  simp only [neighbours, Graph.neighbours, List.length_map, loaded.sum_relationships] at total
  have completed : (compute g .always).completed = true := Search.roots_always _ _ _ _
  refine ⟨mirrors, fun v => ?_, ⟨completed, total⟩, fun s before => ⟨runs s before, ?_⟩, last⟩
  · exact (Partition.component?_ofComponents _ v).trans (mirrors.components v)
  · intro frame rest frames
    have laid := ((Search.sound_start neighbours).runs before).laid
    rw [frames] at laid
    exact laid.extract

/-- Between the junctions there are six relationships, so that four of them take ten steps. -/
theorem compute_mirrors_junctions : ∃ g : Graph Rat,
    Loading.loadInto .huge Loading.fiveByDefault Loading.junctions = .ok g ∧ g.Loaded
      ∧ (compute g .always).polls = 10
      ∧ ∀ v : Fin g.size,
        (compute g .always).value.component? v = (Descent.run (g.neighbours .outgoing)).component v := by
  obtain ⟨g, loaded, labels⟩ := Loading.exists_load_junctions .huge
  have isLoaded : g.Loaded := ⟨_, _, _, loaded⟩
  have keeps := (Loading.stored_of_loadInto loaded).keeps (by decide)
  have four : g.size = 4 := congrArg List.length labels
  have six : g.relationshipCount = 6 := keeps.relationshipCount
  obtain ⟨-, components, ⟨-, polls⟩, -⟩ := compute_mirrors isLoaded
  exact ⟨g, loaded, isLoaded, polls.trans (by omega), components⟩

end NetworkAnalysis.Component
