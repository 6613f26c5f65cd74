import NetworkAnalysis.Proofs.Centrality.Layers

/-!
# Arrays that are used again

One source after the other works on the same arrays. Whatever the arithmetic is, a source that is not stopped
leaves them clean: an exploration counts paths only to the nodes that it finds (`Uncounted`), and the sweep hands
on only to predecessors, which were dequeued (`HandedOn`). The next source therefore finds what it would find in
fresh arrays, and asks twice for every node that it reaches.
-/

namespace NetworkAnalysis.Centrality.Scratch

variable {n : Nat} {α : Type} [Scalar α] {neighbours : Fin n → List (Fin n)} {source node : Fin n}
  {w t : Scratch n α}

/-! ## Exploring -/

/-- No paths are counted to nodes that were not found. -/
def Uncounted (w : Scratch n α) : Prop :=
  ∀ v : Fin n, w.distance[v] = none → w.paths[v] = Scalar.zero

theorem Uncounted.touch (h : w.Uncounted) (level : Nat) (next : Fin n) :
    (touch node level w next).Uncounted := by
  intro v missing
  rw [paths_touch, if_neg fun both => ?_]
  · rw [distance_touch] at missing
    split at missing
    · cases missing
    · exact h v missing
  · rw [missing] at both
    cases both.2

theorem Uncounted.foldl_touch (h : w.Uncounted) (level : Nat) (nodes : List (Fin n)) :
    (nodes.foldl (Scratch.touch node level) w).Uncounted := by
  induction nodes generalizing w with
  | nil => exact h
  | cons next rest ih => exact ih (h.touch level next)

theorem Uncounted.explore (h : w.Uncounted) (watch : Watch) (polls : Nat) :
    (w.explore neighbours watch polls).1.Uncounted := by
  fun_induction Scratch.explore neighbours watch polls w with
  | case1 polls w popped => exact h
  | case2 polls w node rest popped stop => exact h
  | case3 polls w node rest popped more ih =>
    exact ih (Uncounted.foldl_touch (w := { w with visited := node :: w.visited, queue := rest }) h _ _)

theorem uncounted_start (source : Fin n) : ((fresh : Scratch n α).start source).Uncounted := by
  intro v missing
  rw [distance_start] at missing
  split at missing
  · cases missing
  · next other => rw [paths_start, if_neg other]

theorem explore_of_none (popped : w.queue.pop? = none) (watch : Watch) (polls : Nat) :
    w.explore neighbours watch polls = (w, polls, true) := by
  rw [explore]
  split
  · rfl
  · next more =>
    rw [popped] at more
    cases more

/-- An exploration asks before it dequeues a node. -/
theorem explore_of_some {rest : Queue (Fin n)} (popped : w.queue.pop? = some (node, rest)) (watch : Watch)
    (polls : Nat) :
    w.explore neighbours watch polls
      = if !watch polls then (w, polls + 1, false)
        else (w.visit neighbours node rest).explore neighbours watch (polls + 1) := by
  rw [explore]
  split
  · next exhausted =>
    rw [popped] at exhausted
    cases exhausted
  · next node' rest' popped' =>
    obtain ⟨rfl, rfl⟩ := Prod.mk.inj (Option.some.inj (popped'.symm.trans popped))
    rfl

theorem visited_visit (neighbours : Fin n → List (Fin n)) (w : Scratch n α) (node : Fin n)
    (rest : Queue (Fin n)) : (w.visit neighbours node rest).visited = node :: w.visited :=
  (touched_visit neighbours w node rest).visited

/-- An exploration that is never told to stop asks once for every node that it dequeues, and does the same wherever
it starts to count. -/
theorem explore_always_eq (neighbours : Fin n → List (Fin n)) (w : Scratch n α) (polls polls' : Nat) :
    (w.explore neighbours .always polls).1 = (w.explore neighbours .always polls').1
      ∧ (w.explore neighbours .always polls).2.1 + w.visited.length
        = polls + (w.explore neighbours .always polls).1.visited.length := by
  fun_induction Scratch.explore neighbours .always polls w generalizing polls' with
  | case1 polls w popped =>
    rw [explore_of_none popped]
    exact ⟨rfl, rfl⟩
  | case2 polls w node rest popped stop => cases stop
  | case3 polls w node rest popped more ih =>
    obtain ⟨same, asked⟩ := ih (polls' + 1)
    rw [explore_of_some popped]
    refine ⟨same, ?_⟩
    rw [visited_visit, List.length_cons] at asked
    omega

/-! ## Sweeping back -/

/-- The arrays after some nodes have handed on their dependencies: only predecessors have got something. -/
structure HandedOn (w t : Scratch n α) : Prop where
  paths : t.paths = w.paths
  distance : t.distance = w.distance
  predecessors : t.predecessors = w.predecessors
  visited : t.visited = w.visited
  dependency : ∀ v : Fin n, (∀ x : Fin n, v ∉ w.predecessors[x]) → t.dependency[v] = w.dependency[v]

theorem foldl_credit_of_notMem (paths : Table n α) (part : α) {nodes : List (Fin n)} {v : Fin n}
    (outside : v ∉ nodes) (dependency : Table n α) :
    (nodes.foldl (credit paths part) dependency)[v] = dependency[v] := by
  induction nodes generalizing dependency with
  | nil => rfl
  | cons node rest ih =>
    obtain ⟨other, outside⟩ := not_or.1 (mt List.mem_cons.2 outside)
    rw [List.foldl_cons, ih outside, credit, Table.getElem_set_of_ne _ _ (Ne.symm other)]

theorem HandedOn.handOn (h : HandedOn w t) (node : Fin n) : HandedOn w (t.handOn node) := by
  refine ⟨h.paths, h.distance, h.predecessors, h.visited, fun v outside => ?_⟩
  have here : v ∉ t.predecessors[node] := h.predecessors ▸ outside node
  exact (foldl_credit_of_notMem _ _ here _).trans (h.dependency v outside)

theorem HandedOn.foldl_handOn (h : HandedOn w t) (nodes : List (Fin n)) :
    HandedOn w (nodes.foldl Scratch.handOn t) := by
  induction nodes generalizing t with
  | nil => exact h
  | cons node rest ih => exact ih (h.handOn node)

/-- A sweep that is never told to stop asks once for every node. -/
theorem sweep_always_eq (polls : Nat) (nodes : List (Fin n)) (w : Scratch n α) :
    sweep .always polls nodes w = (nodes.foldl Scratch.handOn w, polls + nodes.length, true) := by
  induction nodes generalizing polls w with
  | nil => rfl
  | cons node rest ih =>
    refine (ih (polls + 1) (w.handOn node)).trans ?_
    rw [List.foldl_cons, List.length_cons, Nat.add_assoc, Nat.add_comm 1]

/-! ## One source -/

section Source

variable (neighbours : Fin n → List (Fin n)) (source : Fin n)

/-- The arrays after an exploration of fresh ones that was not stopped. -/
def exploredFrom : Scratch n α :=
  (((fresh : Scratch n α).start source).explore neighbours .always 0).1

/-- The arrays that a source leaves of fresh ones when it was not stopped. -/
def afterSource : Scratch n α :=
  ((fresh : Scratch n α).singleSource neighbours .always 0 source).1

theorem layered_exploredFrom : (exploredFrom neighbours source : Scratch n α).Layered neighbours source :=
  ((layered_start neighbours source).explore .always 0).1

theorem pop?_exploredFrom : (exploredFrom neighbours source : Scratch n α).queue.pop? = none :=
  ((layered_start neighbours source).explore .always 0).2 (explore_always neighbours 0 _)

theorem explore_start (polls : Nat) :
    ((fresh : Scratch n α).start source).explore neighbours .always polls
      = (exploredFrom neighbours source,
          polls + (exploredFrom neighbours source : Scratch n α).visited.length, true) := by
  obtain ⟨same, asked⟩ := explore_always_eq neighbours ((fresh : Scratch n α).start source) polls 0
  have finished := explore_always neighbours polls ((fresh : Scratch n α).start source)
  rw [visited_start, List.length_nil, Nat.add_zero, same] at asked
  exact Prod.ext same (Prod.ext asked finished)

/-- A source that is not stopped asks twice for every node, and finds in clean arrays what it finds in fresh ones. -/
theorem Clean.singleSource_always {w : Scratch n α} (clean : w.Clean) (polls : Nat) :
    w.singleSource neighbours .always polls source
      = (afterSource neighbours source,
          polls + 2 * (exploredFrom neighbours source : Scratch n α).visited.length, true) := by
  simp only [afterSource, singleSource, clean.start, explore_start, sweep_always_eq, Nat.two_mul, Nat.add_assoc]

theorem handedOn_afterSource :
    HandedOn (exploredFrom neighbours source : Scratch n α) (afterSource neighbours source) := by
  simp only [afterSource, singleSource, explore_start, sweep_always_eq]
  exact HandedOn.foldl_handOn ⟨rfl, rfl, rfl, rfl, fun _ _ => rfl⟩ _

theorem visited_afterSource :
    (afterSource neighbours source : Scratch n α).visited
      = (exploredFrom neighbours source : Scratch n α).visited :=
  (handedOn_afterSource neighbours source).visited

theorem nodup_visited_afterSource : (afterSource neighbours source : Scratch n α).visited.Nodup := by
  rw [visited_afterSource]
  exact (layered_exploredFrom neighbours source).nodup_visited (pop?_exploredFrom neighbours source)

/-- A source visits the nodes that it reaches. -/
theorem mem_visited_afterSource {v : Fin n} :
    v ∈ (afterSource neighbours source : Scratch n α).visited ↔ ∃ k, Hops neighbours source v k := by
  have layered := layered_exploredFrom (α := α) neighbours source
  have popped := pop?_exploredFrom (α := α) neighbours source
  rw [visited_afterSource, layered.mem_visited popped, Option.ne_none_iff_exists']
  exact exists_congr fun k => layered.distance_eq_some_iff popped

/-- A source that is not stopped changes the entries of the nodes that it visits and no others. -/
theorem clean_afterSource : (afterSource neighbours source : Scratch n α).Clean := by
  have handed := handedOn_afterSource (α := α) neighbours source
  have layered := layered_exploredFrom (α := α) neighbours source
  have uncounted : (exploredFrom neighbours source : Scratch n α).Uncounted :=
    (uncounted_start source).explore .always 0
  have missing : ∀ v : Fin n, v ∉ (afterSource neighbours source : Scratch n α).visited →
      (exploredFrom neighbours source : Scratch n α).distance[v] = none := by
    intro v outside
    rw [handed.visited, layered.mem_visited (pop?_exploredFrom neighbours source)] at outside
    exact not_not.1 outside
  constructor
  case paths =>
    intro v outside
    rw [handed.paths]
    exact uncounted v (missing v outside)
  case distance =>
    intro v outside
    rw [handed.distance]
    exact missing v outside
  case dependency =>
    intro v outside
    rw [handed.dependency v fun x member => ?_, layered.dependency]
    rw [layered.predecessors] at member
    obtain ⟨u, visited, listed⟩ := List.mem_flatMap.1 member
    split at listed
    · obtain rfl := List.eq_of_mem_replicate listed
      exact outside (handed.visited ▸ visited)
    · cases listed
  case predecessors =>
    intro v outside
    rw [handed.predecessors, layered.predecessors, missing v outside]
    simp

end Source

end NetworkAnalysis.Centrality.Scratch
