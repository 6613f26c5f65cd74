import NetworkAnalysis.Proofs.Component.Correctness
import NetworkAnalysis.Proofs.LoadSuccess
import NetworkAnalysis.Proofs.Transpose
import NetworkAnalysis.Proofs.Watched

/-!
# Component searches that end early

A component is closed once and for all, so that a search that is stopped reports components that are whole and keep
their numbers (`Search.Keeps`), and with a node it has closed everything that the node reaches. How often a search
asks is known beforehand: every question takes away one of the steps that are left (`Search.stepsLeft`), and there
is one step for each relationship and one for leaving each node.
-/

namespace NetworkAnalysis.Component

variable {n : Nat} {neighbours : Fin n → List (Fin n)}

namespace Search

variable {s : Search n} {frame : Frame n} {rest : List (Frame n)}

/-! ## Closed components stay as they are -/

/-- A node that one search has put into a component is in the same component in another one. -/
def Keeps (s t : Search n) : Prop :=
  ∀ (v : Fin n) (c : Nat), s.components[v] = some c → t.components[v] = some c

theorem Keeps.of_eq {t : Search n} (same : t.components = s.components) : s.Keeps t :=
  fun _ _ its => same ▸ its

theorem Keeps.trans {t u : Search n} (first : s.Keeps t) (second : t.Keeps u) : s.Keeps u :=
  fun v c its => second v c (first v c its)

theorem components_look (s : Search n) (node next : Fin n) :
    (s.look neighbours node next).components = s.components := by
  unfold look
  split
  · rfl
  · split <;> rfl

theorem components_handOn (s : Search n) (node : Fin n) : (s.handOn node).components = s.components := by
  unfold handOn
  split <;> rfl

/-- A component takes only nodes from the stack, and these have none. -/
theorem keeps_leave (h : s.Stacked) (frames : s.frames = frame :: rest) : s.Keeps (s.leave frame rest) := by
  intro v c its
  rw [leave, components_handOn]
  by_cases first : s.index[frame.node] = some s.lowlink[frame.node]
  · have change := closedFrom_close h frames first (s.buffer.shrink frame.start)
    rw [change.components, if_neg]
    · exact its
    · rintro ⟨onStack, -⟩
      rw [h.open' v onStack] at its
      cases its
  · unfold close
    rw [if_neg first]
    exact its

theorem keeps_advance (h : s.Stacked) (frames : s.frames = frame :: rest) :
    s.Keeps (s.advance neighbours frame rest) := by
  unfold advance
  split
  · dsimp only
    split
    · exact .of_eq (components_look _ _ _)
    · exact .of_eq rfl
  · exact keeps_leave h frames

/-! ## Steps left -/

/-- The steps that are left: those of the open frames, and those that the nodes to discover will bring. -/
def stepsLeft (neighbours : Fin n → List (Fin n)) (s : Search n) : Nat :=
  s.framesLeft + ∑ v : Fin n, if s.index[v] = none then (neighbours v).length + 1 else 0

theorem stepsLeft_enter {node : Fin n} (new : s.index[node] = none) :
    (s.enter neighbours node).stepsLeft neighbours = s.stepsLeft neighbours := by
  have frames : (s.enter neighbours node).framesLeft = (neighbours node).length + 1 + s.framesLeft := by
    have size : (s.buffer ++ neighbours node).size = s.buffer.size + (neighbours node).length := by
      rw [← Array.length_toList, Array.toList_appendList, List.length_append, Array.length_toList]
    simp only [enter, framesLeft, List.foldr_cons, size, Nat.add_sub_cancel_left]
  have others : ∀ v : Fin n,
      (if s.index[v] = none then (neighbours v).length + 1 else 0)
        = (if (s.enter neighbours node).index[v] = none then (neighbours v).length + 1 else 0)
          + if node = v then (neighbours node).length + 1 else 0 := by
    intro v
    rw [index_enter]
    by_cases same : node = v
    · subst same
      simp [new]
    · simp [same]
  rw [stepsLeft, stepsLeft, frames, Finset.sum_congr rfl fun v _ => others v, Finset.sum_add_distrib,
    Finset.sum_ite_eq, if_pos (Finset.mem_univ node)]
  omega

theorem stepsLeft_look (s : Search n) (node next : Fin n) :
    (s.look neighbours node next).stepsLeft neighbours = s.stepsLeft neighbours := by
  unfold look
  split
  · next new => exact stepsLeft_enter new
  · split <;> rfl

/-- A step of the open frames is one less of all. -/
theorem stepsLeft_of_framesLeft {t : Search n} (same : t.index = s.index)
    (fewer : t.framesLeft + 1 = s.framesLeft) : t.stepsLeft neighbours + 1 = s.stepsLeft neighbours := by
  rw [stepsLeft, stepsLeft, same]
  omega

/-- Every step takes one away. -/
theorem stepsLeft_advance (laid : Laid neighbours s.frames s.buffer.toList) (frames : s.frames = frame :: rest) :
    (s.advance neighbours frame rest).stepsLeft neighbours + 1 = s.stepsLeft neighbours := by
  rw [frames] at laid
  obtain ⟨_, _, _, stop, _, _, _⟩ := laid
  unfold advance
  split
  · next more =>
    have inside : frame.cursor < s.buffer.size := by
      rwa [stop, Array.length_toList] at more
    have moved : framesLeft { s with frames := { frame with cursor := frame.cursor + 1 } :: rest } + 1
        = s.framesLeft := by
      simp only [framesLeft, frames, List.foldr_cons]
      omega
    simp only [Array.getElem?_eq_getElem inside]
    rw [stepsLeft_look]
    exact stepsLeft_of_framesLeft rfl moved
  · next done =>
    have left : (s.leave frame rest).framesLeft + 1 = s.framesLeft := by
      rw [leave, framesLeft_handOn]
      simp only [framesLeft, frames_close, frames, List.foldr_cons]
      omega
    refine stepsLeft_of_framesLeft ?_ left
    rw [leave, index_handOn, index_close]

/-! ## Runs -/

theorem drain_of_nil (idle : s.frames = []) (watch : Watch) : s.drain neighbours watch = (s, true) := by
  rw [drain]
  split
  · rfl
  · next found =>
    rw [idle] at found
    cases found

/-- A search asks before every step of a frame. -/
theorem drain_of_cons (frames : s.frames = frame :: rest) (watch : Watch) :
    s.drain neighbours watch
      = if !watch s.polls then ({ s with polls := s.polls + 1 }, false)
        else ({ s with polls := s.polls + 1 }.advance neighbours frame rest).drain neighbours watch := by
  rw [drain]
  split
  · next found =>
    rw [frames] at found
    cases found
  · next frame' rest' found =>
    obtain ⟨rfl, rfl⟩ := List.cons.inj (found.symm.trans frames)
    rfl

theorem polls_look (s : Search n) (node next : Fin n) : (s.look neighbours node next).polls = s.polls := by
  unfold look
  split
  · rfl
  · split <;> rfl

theorem polls_leave (s : Search n) (frame : Frame n) (rest : List (Frame n)) :
    (s.leave frame rest).polls = s.polls := by
  unfold leave handOn close
  split <;> split <;> rfl

theorem polls_advance (s : Search n) (frame : Frame n) (rest : List (Frame n)) :
    (s.advance neighbours frame rest).polls = s.polls := by
  unfold advance
  split
  · dsimp only
    split
    · exact polls_look _ _ _
    · rfl
  · exact polls_leave s frame rest

theorem watched_drain (neighbours : Fin n → List (Fin n)) (s : Search n) :
    Watched (fun result => result.1.polls) Prod.snd s.polls fun watch => s.drain neighbours watch := by
  fun_induction Search.drain neighbours .always s with
  | case1 s idle =>
    simp only [drain_of_nil idle]
    exact .ends rfl rfl
  | case2 s frame rest frames stop => cases stop
  | case3 s frame rest frames more ih =>
    simp only [drain_of_cons frames]
    rw [polls_advance] at ih
    exact .asks rfl rfl ih

/-- The search goes on with the next root if it was not stopped at the first one. -/
theorem roots_cons_of_new {α : Type} [Scalar α] {root : Fin n} (new : s.index[root] = none) (watch : Watch)
    (nodes : List (Fin n)) (progress : Array α) :
    s.roots neighbours watch (root :: nodes) progress
      = let drained := (s.enter neighbours root).drain neighbours watch
        if drained.2 then
          drained.1.roots neighbours watch nodes (progress.push (Scalar.fraction drained.1.counter n))
        else (drained.1, progress, false) := by
  rw [roots, if_neg (not_not.2 new)]
  rcases (s.enter neighbours root).drain neighbours watch with ⟨drained, completed⟩
  cases completed <;> rfl

theorem watched_roots {α : Type} [Scalar α] (neighbours : Fin n → List (Fin n)) (nodes : List (Fin n))
    (s : Search n) (progress : Array α) :
    Watched (fun result => result.1.polls) (fun result => result.2.2) s.polls
      fun watch => s.roots neighbours watch nodes progress := by
  induction nodes generalizing s progress with
  | nil => exact .ends rfl rfl
  | cons root rest ih =>
    by_cases new : s.index[root] = none
    · simp only [roots_cons_of_new new]
      refine (watched_drain neighbours (s.enter neighbours root)).bind
        (fun drained watch => if drained.2 then
            drained.1.roots neighbours watch rest (progress.push (Scalar.fraction drained.1.counter n))
          else (drained.1, progress, false)) ?_ ?_
      · intro drained finished
        simp only [finished, if_true]
        exact ih drained.1 _
      · intro drained stopped
        exact ⟨(drained.1, progress, false), rfl, rfl, fun _ => by simp [stopped]⟩
    · simp only [roots, if_pos new]
      exact ih s progress

/-- However long a search goes on, what it has put into a component stays there. -/
theorem keeps_drain (h : s.Sound neighbours) (watch : Watch) : s.Keeps (s.drain neighbours watch).1 := by
  fun_induction Search.drain neighbours watch s with
  | case1 s idle => exact .of_eq rfl
  | case2 s frame rest frames stop => exact .of_eq rfl
  | case3 s frame rest frames more ih =>
    have polled := h.poll (s.polls + 1)
    exact (keeps_advance polled.stacked frames).trans (ih (polled.advance frames))

/-- What a search has closed when it is stopped, the search that is never told to stop closes in the same way. -/
theorem drain_keeps_always (h : s.Sound neighbours) (watch : Watch) :
    (s.drain neighbours watch).1.Keeps (s.drain neighbours .always).1 := by
  fun_induction Search.drain neighbours watch s with
  | case1 s idle =>
    rw [drain_of_nil idle]
    exact .of_eq rfl
  | case2 s frame rest frames stop => exact keeps_drain h .always
  | case3 s frame rest frames more ih =>
    rw [drain_of_cons frames .always]
    exact ih ((h.poll (s.polls + 1)).advance frames)

theorem keeps_roots {α : Type} [Scalar α] (h : s.Sound neighbours) (idle : s.frames = []) (watch : Watch)
    (nodes : List (Fin n)) (progress : Array α) :
    s.Keeps (s.roots neighbours watch nodes progress).1 := by
  fun_induction Search.roots neighbours watch nodes s progress with
  | case1 s progress => exact .of_eq rfl
  | case2 root rest s progress found ih => exact ih h idle
  | case3 root rest s progress new t drained =>
    have kept := keeps_drain (h.enter_root idle (not_not.1 new)) watch
    rw [drained] at kept
    exact kept
  | case4 root rest s progress new t drained ih =>
    have entered := h.enter_root idle (not_not.1 new)
    have kept := keeps_drain entered watch
    have run := entered.drain watch
    rw [drained] at kept run
    exact Keeps.trans (s := s.enter neighbours root) kept (ih run.1 (run.2.1 rfl))

theorem roots_keeps_always {α : Type} [Scalar α] (h : s.Sound neighbours) (idle : s.frames = []) (watch : Watch)
    (nodes : List (Fin n)) (progress : Array α) :
    (s.roots neighbours watch nodes progress).1.Keeps (s.roots neighbours .always nodes progress).1 := by
  fun_induction Search.roots neighbours watch nodes s progress with
  | case1 s progress => exact .of_eq rfl
  | case2 root rest s progress found ih =>
    rw [roots, if_pos found]
    exact ih h idle
  | case3 root rest s progress new t drained =>
    have entered := h.enter_root idle (not_not.1 new)
    have kept := drain_keeps_always entered watch
    have run := entered.drain .always
    have ended := drain_always neighbours (s.enter neighbours root)
    rw [drained] at kept
    -- The search that goes on closes more of this root and of the later ones, and keeps what is closed.
    rw [roots_cons_of_new (not_not.1 new)]
    dsimp only
    rw [if_pos ended]
    exact kept.trans (keeps_roots run.1 (run.2.1 ended) .always rest _)
  | case4 root rest s progress new t drained ih =>
    have run := (h.enter_root idle (not_not.1 new)).drain watch
    have same : (s.enter neighbours root).drain neighbours watch
        = (s.enter neighbours root).drain neighbours .always :=
      (watched_drain neighbours (s.enter neighbours root)).eq_always (congrArg Prod.snd drained)
    rw [drained] at run same
    rw [roots, if_neg new, ← same]
    exact ih run.1 (run.2.1 rfl)

/-! ## How often a search asks -/

/-- A search that is never told to stop asks once for every step that it takes. -/
theorem stepsLeft_drain (h : s.Sound neighbours) :
    (s.drain neighbours .always).1.polls + (s.drain neighbours .always).1.stepsLeft neighbours
      = s.polls + s.stepsLeft neighbours := by
  fun_induction Search.drain neighbours .always s with
  | case1 s idle => rfl
  | case2 s frame rest frames stop => cases stop
  | case3 s frame rest frames more ih =>
    have polled := h.poll (s.polls + 1)
    have taken := stepsLeft_advance polled.laid frames
    have unpolled : Search.stepsLeft neighbours { s with polls := s.polls + 1 } = s.stepsLeft neighbours := rfl
    rw [unpolled] at taken
    rw [ih (polled.advance frames), polls_advance, ← taken]
    exact Nat.add_right_comm _ _ _

theorem stepsLeft_roots {α : Type} [Scalar α] (h : s.Sound neighbours) (idle : s.frames = [])
    (nodes : List (Fin n)) (progress : Array α) :
    (s.roots neighbours .always nodes progress).1.polls
        + (s.roots neighbours .always nodes progress).1.stepsLeft neighbours
      = s.polls + s.stepsLeft neighbours := by
  fun_induction Search.roots neighbours .always nodes s progress with
  | case1 s progress => rfl
  | case2 root rest s progress found ih => exact ih h idle
  | case3 root rest s progress new t drained =>
    have ended := drain_always neighbours (s.enter neighbours root)
    rw [drained] at ended
    cases ended
  | case4 root rest s progress new t drained ih =>
    have entered := h.enter_root idle (not_not.1 new)
    have run := entered.drain .always
    have taken := stepsLeft_drain entered
    rw [drained] at run taken
    rw [ih run.1 (run.2.1 rfl), taken, stepsLeft_enter (not_not.1 new)]
    rfl

/-- A search for all components asks once for every relationship and once for every node. -/
theorem polls_roots_always (α : Type) [Scalar α] (neighbours : Fin n → List (Fin n)) (progress : Array α) :
    ((start : Search n).roots neighbours .always (List.finRange n) progress).1.polls
      = n + ∑ v : Fin n, (neighbours v).length := by
  have sound := sound_start neighbours
  have taken := stepsLeft_roots sound rfl (List.finRange n) progress
  obtain ⟨-, -, ended⟩ := sound.roots rfl .always (List.finRange n) progress
  obtain ⟨idle, all⟩ := ended (roots_always neighbours _ _ progress)
  have allTaken : stepsLeft neighbours
      ((start : Search n).roots neighbours .always (List.finRange n) progress).1 = 0 := by
    rw [stepsLeft, framesLeft, idle, List.foldr_nil, Nat.zero_add]
    exact Finset.sum_eq_zero fun v _ => if_neg (all v (List.mem_finRange v))
  have begun : (start : Search n).stepsLeft neighbours = ∑ v : Fin n, ((neighbours v).length + 1) := by
    simp [stepsLeft, framesLeft, start]
  have asked : (start : Search n).polls = 0 := rfl
  rw [allTaken, begun, Finset.sum_add_distrib, Finset.sum_const, Finset.card_univ, Fintype.card_fin, smul_eq_mul,
    Nat.mul_one, asked] at taken
  omega

end Search

/-! ## Results -/

/-- The components of a search that may have been stopped are whole components of the search that was not. -/
structure Partition.PartOf (part full : Partition n) (neighbours : Fin n → List (Fin n)) : Prop where
  /-- A node that has a component has the one that it has in the end. -/
  final : ∀ v : Fin n, part.component? v = none ∨ part.component? v = full.component? v
  /-- The component of a node holds the nodes that it reaches and that reach it. -/
  whole : ∀ u v : Fin n, part.component? u ≠ none →
    (part.component? u = part.component? v ↔ Reaches neighbours u v ∧ Reaches neighbours v u)
  /-- What can be reached from a node with a component has a component. -/
  reached : ∀ u v : Fin n, Reaches neighbours u v → part.component? u ≠ none → part.component? v ≠ none
  /-- The components are numbered without gaps. -/
  ids : ∀ c, (∃ v : Fin n, part.component? v = some c) ↔ c < part.count

/-- Whatever the watch says, a search reports a part of what the search reports that is never stopped. -/
theorem partOf_search {α : Type} [Scalar α] (neighbours : Fin n → List (Fin n)) (watch : Watch) :
    (search (α := α) neighbours watch).value.PartOf (search (α := α) neighbours .always).value neighbours := by
  have its := @Partition.component?_ofComponents n
  have sound := Search.sound_start neighbours
  have closed := (sound.roots rfl watch (List.finRange n) (#[] : Array α)).1.closed
  have kept := Search.roots_keeps_always sound rfl watch (List.finRange n) (#[] : Array α)
  unfold search
  constructor
  case final =>
    intro v
    rw [its, its, Classical.or_iff_not_imp_left]
    intro assigned
    obtain ⟨c, its⟩ := Option.ne_none_iff_exists'.1 assigned
    exact its.trans (kept v c its).symm
  case whole =>
    intro u v assigned
    rw [its] at assigned
    obtain ⟨c, itsU⟩ := Option.ne_none_iff_exists'.1 assigned
    rw [its, its]
    exact closed.same_iff itsU
  case reached =>
    intro u v reach assigned
    rw [its] at assigned ⊢
    obtain ⟨c, itsU⟩ := Option.ne_none_iff_exists'.1 assigned
    obtain ⟨d, itsV, -⟩ := closed.le_of_reaches reach itsU
    exact Option.ne_none_iff_exists'.2 ⟨d, itsV⟩
  case ids =>
    intro c
    have sizes := congrArg List.length (Partition.sizes_ofComponents closed.used)
    rw [Array.length_toList, List.length_map, List.length_range] at sizes
    simp only [its, Partition.count]
    exact (closed.used c).trans (sizes ▸ Iff.rfl)

/-- A search that is stopped reports components that are whole and that keep their numbers. It asks once for every
node and once for every relationship, or once more than its budget allows. -/
theorem compute_stopped {α : Type} [Scalar α] {g : Graph α} (loaded : g.Loaded) :
    (∀ watch, (compute g watch).value.PartOf (compute g .always).value (g.neighbours .outgoing))
      ∧ ∀ budget : Nat,
        (compute g (.budget budget)).polls = min (budget + 1) (g.size + g.relationshipCount)
          ∧ ((compute g (.budget budget)).completed = true ↔ g.size + g.relationshipCount ≤ budget) := by
  have watched := Search.watched_roots (g.neighbours .outgoing) (List.finRange g.size) .start (#[] : Array α)
  have total := Search.polls_roots_always α (g.neighbours .outgoing) #[]
  simp only [Graph.neighbours, List.length_map, loaded.sum_relationships] at total
  refine ⟨partOf_search _, fun budget => ⟨?_, ?_⟩⟩
  · rw [← total]
    exact watched.polls_budget (Nat.zero_le _)
  · rw [← total]
    exact watched.completed_budget_iff (Nat.zero_le _)

/-- The junctions have four nodes, so that a search may not end after three questions. -/
theorem compute_stopped_junctions : ∃ g : Graph Rat,
    Loading.loadInto .huge Loading.fiveByDefault Loading.junctions = .ok g ∧ g.Loaded
      ∧ (compute g (.budget 3)).value.PartOf (compute g .always).value (g.neighbours .outgoing)
      ∧ (compute g (.budget 3)).polls = 4 ∧ ¬(compute g (.budget 3)).completed = true := by
  obtain ⟨g, loaded, labels⟩ := Loading.exists_load_junctions .huge
  have four : g.size = 4 := congrArg List.length labels
  have isLoaded : g.Loaded := ⟨_, _, _, loaded⟩
  obtain ⟨parts, counts⟩ := compute_stopped isLoaded
  obtain ⟨polls, completed⟩ := counts 3
  refine ⟨g, loaded, isLoaded, parts _, ?_, ?_⟩
  · rw [polls, four]
    omega
  · rw [completed, four]
    omega

end NetworkAnalysis.Component
