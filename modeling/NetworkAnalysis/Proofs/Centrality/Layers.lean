import Mathlib.Data.List.Nodup
import NetworkAnalysis.Centrality.Exploration
import NetworkAnalysis.Proofs.Centrality.Walks

/-!
# The layers of an exploration

While an exploration goes on, the nodes found so far are ordered by their distance: first the nodes dequeued,
then the queue, which spans no more than two layers (`Layered`). When the queue is empty, the distance of a
node is the number of hops to it, and the predecessors of a node are the nodes one layer nearer, each as
often as there are relationships from it.
-/

namespace NetworkAnalysis.Centrality.Scratch

variable {n : Nat} {α : Type} [Scalar α]

/-! ## One node -/

@[simp]
theorem distance_count (w : Scratch n α) (node next : Fin n) (level : Nat) :
    (w.count node next level).distance = w.distance := by
  unfold count
  split <;> rfl

@[simp]
theorem queue_count (w : Scratch n α) (node next : Fin n) (level : Nat) :
    (w.count node next level).queue = w.queue := by
  unfold count
  split <;> rfl

omit [Scalar α] in
@[simp]
theorem paths_discover (w : Scratch n α) (next : Fin n) (level : Nat) :
    (w.discover next level).paths = w.paths := by
  unfold discover
  split <;> rfl

omit [Scalar α] in
@[simp]
theorem predecessors_discover (w : Scratch n α) (next : Fin n) (level : Nat) :
    (w.discover next level).predecessors = w.predecessors := by
  unfold discover
  split <;> rfl

theorem distance_touch (node : Fin n) (level : Nat) (w : Scratch n α) (next v : Fin n) :
    (touch node level w next).distance[v]
      = if next = v ∧ w.distance[v] = none then some level else w.distance[v] := by
  rw [touch, distance_count]
  unfold discover
  by_cases same : next = v
  · subst same
    by_cases unknown : w.distance[next] = none
    · simp [unknown]
    · simp [unknown]
  · by_cases unknown : w.distance[next] = none
    · simp [unknown, same, Table.getElem_set_of_ne]
    · simp [unknown, same]

/-- A step finds the node that it leads to. -/
theorem distance_touch_ne_none (node : Fin n) (level : Nat) (w : Scratch n α) (next : Fin n) :
    (touch node level w next).distance[next] ≠ none := by
  rw [distance_touch]
  split
  · exact Option.some_ne_none _
  · next known => exact fun unknown => known ⟨rfl, unknown⟩

theorem predecessors_touch (node : Fin n) (level : Nat) (w : Scratch n α) (next v : Fin n) :
    (touch node level w next).predecessors[v]
      = if next = v ∧ (touch node level w next).distance[v] = some level then
          node :: w.predecessors[v]
        else w.predecessors[v] := by
  rw [touch, distance_count, count]
  by_cases level' : (w.discover next level).distance[next] = some level
  · rw [if_pos level', predecessors_discover]
    by_cases same : next = v
    · subst same
      simp [level']
    · simp [same, Table.getElem_set_of_ne]
  · rw [if_neg level', predecessors_discover]
    by_cases same : next = v
    · subst same
      simp [level']
    · simp [same]

theorem paths_touch (node : Fin n) (level : Nat) (w : Scratch n α) (next v : Fin n) :
    (touch node level w next).paths[v]
      = if next = v ∧ (touch node level w next).distance[v] = some level then
          w.paths[v] + w.paths[node]
        else w.paths[v] := by
  rw [touch, distance_count, count]
  by_cases level' : (w.discover next level).distance[next] = some level
  · rw [if_pos level', paths_discover]
    by_cases same : next = v
    · subst same
      simp only [level', and_self, if_true, Table.getElem_set_self]
    · simp [same, Table.getElem_set_of_ne]
  · rw [if_neg level', paths_discover]
    by_cases same : next = v
    · subst same
      simp [level']
    · simp [same]

theorem queue_touch (node : Fin n) (level : Nat) (w : Scratch n α) (next : Fin n) :
    (touch node level w next).queue.toList
      = w.queue.toList ++ if w.distance[next] = none then [next] else [] := by
  rw [touch, queue_count]
  unfold discover
  split
  · rw [Queue.toList_push]
  · rw [List.append_nil]

/-- What the steps from a node change. -/
structure Touched (node : Fin n) (level : Nat) (nodes : List (Fin n)) (w t : Scratch n α) : Prop where
  distance : ∀ v : Fin n, t.distance[v]
    = if w.distance[v] = none ∧ v ∈ nodes then some level else w.distance[v]
  predecessors : ∀ v : Fin n, t.predecessors[v]
    = (if t.distance[v] = some level then List.replicate (nodes.count v) node else [])
      ++ w.predecessors[v]
  queue : ∃ new : List (Fin n), t.queue.toList = w.queue.toList ++ new ∧ new.Nodup
    ∧ ∀ v, v ∈ new ↔ w.distance[v] = none ∧ v ∈ nodes
  visited : t.visited = w.visited
  dependency : t.dependency = w.dependency

omit [Scalar α] in
theorem Touched.keeps {node v : Fin n} {level : Nat} {nodes : List (Fin n)} {w t : Scratch n α}
    (h : Touched node level nodes w t) (known : w.distance[v] ≠ none) : t.distance[v] = w.distance[v] := by
  rw [h.distance, if_neg fun unknown => known unknown.1]

/-- The neighbours of a node that are new get its next level, each of them once, and those at that level get the node as
a predecessor as often as it leads to them. -/
theorem touched_foldl (node : Fin n) (level : Nat) (nodes : List (Fin n)) (w : Scratch n α) :
    Touched node level nodes w (nodes.foldl (touch node level) w) := by
  induction nodes generalizing w with
  | nil => exact ⟨by simp, fun v => by split <;> rfl, ⟨[], by simp⟩, rfl, rfl⟩
  | cons next rest ih =>
    have step := ih (touch node level w next)
    have known := distance_touch_ne_none node level w next
    have distance : ∀ v : Fin n, ((next :: rest).foldl (touch node level) w).distance[v]
        = if w.distance[v] = none ∧ v ∈ next :: rest then some level else w.distance[v] := by
      intro v
      rw [List.foldl_cons, step.distance, distance_touch]
      by_cases same : next = v
      · subst same
        by_cases unknown : w.distance[next] = none <;> simp [unknown]
      · by_cases unknown : w.distance[v] = none <;> simp [unknown, same, Ne.symm same]
    refine ⟨distance, fun v => ?_, ?_, ?_, ?_⟩
    · rw [List.foldl_cons, step.predecessors, predecessors_touch, List.count_cons]
      by_cases same : next = v
      · subst same
        simp only [step.keeps known, true_and, beq_self_eq_true, if_true, List.replicate_succ']
        split
        · rw [List.append_assoc, List.singleton_append]
        · rfl
      · simp [same]
    · obtain ⟨new, queue, nodup, members⟩ := step.queue
      rw [queue_touch] at queue
      refine ⟨(if w.distance[next] = none then [next] else []) ++ new, ?_, ?_, fun v => ?_⟩
      · rw [List.foldl_cons, queue, List.append_assoc]
      · split
        · refine List.nodup_cons.2 ⟨fun member => ?_, nodup⟩
          exact known ((members next).1 member).1
        · exact nodup
      · rw [List.mem_append, members, distance_touch]
        by_cases same : next = v
        · subst same
          by_cases unknown : w.distance[next] = none <;> simp [unknown]
        · by_cases unknown : w.distance[next] = none <;> simp [unknown, same, Ne.symm same]
    · rw [List.foldl_cons, step.visited]
      unfold touch count discover
      split <;> split <;> rfl
    · rw [List.foldl_cons, step.dependency]
      unfold touch count discover
      split <;> split <;> rfl

/-! ## The invariant -/

/-- The distance of a node that was found. -/
def level (w : Scratch n α) (node : Fin n) : Nat :=
  (w.distance[node]).getD 0

/-- The nodes found, in the order in which they were found. -/
def found (w : Scratch n α) : List (Fin n) :=
  w.visited.reverse ++ w.queue.toList

omit [Scalar α] in
theorem level_of_distance {w : Scratch n α} {node : Fin n} {k : Nat} (h : w.distance[node] = some k) :
    w.level node = k := by
  rw [level, h]
  rfl

omit [Scalar α] in
theorem distance_eq_some_level {w : Scratch n α} {node : Fin n} (h : w.distance[node] ≠ none) :
    w.distance[node] = some (w.level node) := by
  obtain ⟨k, known⟩ := Option.ne_none_iff_exists'.1 h
  rw [level_of_distance known, known]

/-- The nodes found stand in layers around the source. -/
structure Layered (neighbours : Fin n → List (Fin n)) (source : Fin n) (w : Scratch n α) : Prop where
  known : ∀ v : Fin n, w.distance[v] ≠ none ↔ v ∈ w.found
  nodup : w.found.Nodup
  ordered : w.found.Pairwise fun u v => w.level u ≤ w.level v
  near : ∀ u ∈ w.found, ∀ v ∈ w.queue.toList, w.level u ≤ w.level v + 1
  origin : w.distance[source] = some 0
  root : ∀ v : Fin n, w.distance[v] = some 0 → v = source
  parent : ∀ (v : Fin n) (k : Nat), w.distance[v] = some (k + 1) →
    ∃ u ∈ w.visited, w.distance[u] = some k ∧ v ∈ neighbours u
  closed : ∀ u ∈ w.visited, ∀ v ∈ neighbours u, ∃ k, w.distance[v] = some k ∧ k ≤ w.level u + 1
  predecessors : ∀ v : Fin n, w.predecessors[v] = w.visited.flatMap fun u =>
    if w.distance[v] = some (w.level u + 1) then List.replicate ((neighbours u).count v) u else []
  dependency : ∀ v : Fin n, w.dependency[v] = Scalar.zero

section Visit

variable {neighbours : Fin n → List (Fin n)} {source node : Fin n} {w t : Scratch n α}
  {rest : Queue (Fin n)}

omit [Scalar α] in
theorem found_of_pop? (popped : w.queue.pop? = some (node, rest)) :
    w.found = w.visited.reverse ++ node :: rest.toList := by
  rw [found, Queue.toList_of_pop? popped]

omit [Scalar α] in
theorem mem_found_of_mem_visited {u : Fin n} (member : u ∈ w.visited) : u ∈ w.found :=
  List.mem_append_left _ (List.mem_reverse.2 member)

omit [Scalar α] in
theorem mem_found_of_pop? (popped : w.queue.pop? = some (node, rest)) : node ∈ w.found := by
  rw [found_of_pop? popped]
  exact List.mem_append_right _ List.mem_cons_self

omit [Scalar α] in
theorem mem_found_of_mem_rest (popped : w.queue.pop? = some (node, rest)) {u : Fin n}
    (member : u ∈ rest.toList) : u ∈ w.found := by
  rw [found_of_pop? popped]
  exact List.mem_append_right _ (List.mem_cons_of_mem _ member)

namespace Layered

variable (h : w.Layered neighbours source)

include h

/-- A step from a node dequeued earlier leads to nothing new. -/
theorem count_eq_zero {u v : Fin n} (member : u ∈ w.visited) (unknown : w.distance[v] = none) :
    (neighbours u).count v = 0 := by
  refine List.count_eq_zero.2 fun step => ?_
  obtain ⟨k, known, -⟩ := h.closed u member v step
  rw [unknown] at known
  cases known

theorem level_le_of_mem_visited (popped : w.queue.pop? = some (node, rest)) {u : Fin n}
    (member : u ∈ w.visited) : w.level u ≤ w.level node := by
  have ordered := h.ordered
  rw [found_of_pop? popped, List.pairwise_append] at ordered
  exact ordered.2.2 u (List.mem_reverse.2 member) node List.mem_cons_self

theorem level_le_of_mem_rest (popped : w.queue.pop? = some (node, rest)) {u : Fin n}
    (member : u ∈ rest.toList) : w.level node ≤ w.level u := by
  have ordered := h.ordered
  rw [found_of_pop? popped, List.pairwise_append, List.pairwise_cons] at ordered
  exact ordered.2.1.1 u member

theorem level_le_add_one (popped : w.queue.pop? = some (node, rest)) {u : Fin n}
    (member : u ∈ w.found) : w.level u ≤ w.level node + 1 := by
  refine h.near u member node ?_
  rw [Queue.toList_of_pop? popped]
  exact List.mem_cons_self

end Layered

/-- What a visit changes. -/
theorem touched_visit (neighbours : Fin n → List (Fin n)) (w : Scratch n α) (node : Fin n)
    (rest : Queue (Fin n)) :
    Touched node (w.level node + 1) (neighbours node)
      { w with visited := node :: w.visited, queue := rest } (w.visit neighbours node rest) :=
  touched_foldl _ _ _ _

/-- A visit moves the node over, and the new nodes come one layer later. -/
structure Visited (neighbours : Fin n → List (Fin n)) (node : Fin n) (rest : Queue (Fin n))
    (new : List (Fin n)) (w t : Scratch n α) : Prop where
  visited : t.visited = node :: w.visited
  queue : t.queue.toList = rest.toList ++ new
  found : t.found = w.found ++ new
  nodup : new.Nodup
  old : ∀ v ∈ w.found, t.distance[v] = w.distance[v]
  fresh : ∀ v ∈ new, v ∈ neighbours node ∧ v ∉ w.found ∧ t.distance[v] = some (w.level node + 1)
  all : ∀ v ∈ neighbours node, v ∈ w.found ∨ v ∈ new
  known : ∀ v : Fin n, t.distance[v] ≠ none ↔ v ∈ t.found

theorem Layered.visited_visit (h : w.Layered neighbours source)
    (popped : w.queue.pop? = some (node, rest)) :
    ∃ new : List (Fin n), w.Visited neighbours node rest new (w.visit neighbours node rest) := by
  have touched := touched_visit neighbours w node rest
  generalize w.visit neighbours node rest = t at touched ⊢
  obtain ⟨new, queue, nodup, members⟩ := touched.queue
  have found : t.found = w.found ++ new := by
    rw [Scratch.found, queue, touched.visited, found_of_pop? popped]
    simp
  have unknown : ∀ v ∈ new, v ∉ w.found := fun v member inside =>
    (h.known v).2 inside ((members v).1 member).1
  refine ⟨new, touched.visited, queue, found, nodup, fun v member => ?_, fun v member => ?_,
    fun v step => ?_, fun v => ?_⟩
  · rw [touched.distance, if_neg fun unknown => (h.known v).2 member unknown.1]
  · obtain ⟨missing, step⟩ := (members v).1 member
    exact ⟨step, unknown v member, by rw [touched.distance, if_pos ⟨missing, step⟩]⟩
  · by_cases missing : w.distance[v] = none
    · exact .inr ((members v).2 ⟨missing, step⟩)
    · exact .inl ((h.known v).1 missing)
  · rw [found, List.mem_append, members, ← h.known, touched.distance]
    by_cases missing : w.distance[v] = none
    · simp [missing]
    · simp [missing]

namespace Visited

variable {new : List (Fin n)} (visit : w.Visited neighbours node rest new t)

include visit

omit [Scalar α] in
theorem level_old {v : Fin n} (member : v ∈ w.found) : t.level v = w.level v := by
  rw [level, level, visit.old v member]

omit [Scalar α] in
theorem level_fresh {v : Fin n} (member : v ∈ new) : t.level v = w.level node + 1 :=
  level_of_distance (visit.fresh v member).2.2

variable (h : w.Layered neighbours source) (popped : w.queue.pop? = some (node, rest))

include h

theorem nodup_found : t.found.Nodup := by
  rw [visit.found]
  refine List.nodup_append.2 ⟨h.nodup, visit.nodup, ?_⟩
  rintro u inside v fresh rfl
  exact (visit.fresh u fresh).2.1 inside

include popped

/-- The new nodes are one layer farther away, and no node found is farther. -/
theorem ordered : t.found.Pairwise fun u v => t.level u ≤ t.level v := by
  rw [visit.found]
  refine List.pairwise_append.2 ⟨?_, ?_, ?_⟩
  · refine h.ordered.imp_of_mem fun hu hv le => ?_
    rwa [visit.level_old hu, visit.level_old hv]
  · refine List.pairwise_of_forall_mem_list fun u hu v hv => ?_
    rw [visit.level_fresh hu, visit.level_fresh hv]
  · intro u inside v fresh
    rw [visit.level_old inside, visit.level_fresh fresh]
    exact h.level_le_add_one popped inside

theorem near : ∀ u ∈ t.found, ∀ v ∈ t.queue.toList, t.level u ≤ t.level v + 1 := by
  intro u inside v inQueue
  rw [visit.queue, List.mem_append] at inQueue
  rw [visit.found, List.mem_append] at inside
  have farthest : t.level u ≤ w.level node + 1 := by
    rcases inside with inside | fresh
    · rw [visit.level_old inside]
      exact h.level_le_add_one popped inside
    · rw [visit.level_fresh fresh]
  rcases inQueue with waits | fresh
  · have after := h.level_le_of_mem_rest popped waits
    rw [visit.level_old (mem_found_of_mem_rest popped waits)]
    omega
  · rw [visit.level_fresh fresh]
    omega

/-- The steps from the node lead to what was found before, or to the new nodes. -/
theorem closed : ∀ u ∈ t.visited, ∀ v ∈ neighbours u, ∃ k, t.distance[v] = some k ∧ k ≤ t.level u + 1 := by
  intro u member v step
  rw [visit.visited] at member
  rcases List.mem_cons.1 member with rfl | earlier
  · rw [visit.level_old (mem_found_of_pop? popped)]
    rcases visit.all v step with inside | fresh
    · refine ⟨w.level v, ?_, h.level_le_add_one popped inside⟩
      rw [visit.old v inside]
      exact distance_eq_some_level ((h.known v).2 inside)
    · exact ⟨_, (visit.fresh v fresh).2.2, Nat.le_refl _⟩
  · obtain ⟨k, known, le⟩ := h.closed u earlier v step
    refine ⟨k, ?_, by rwa [visit.level_old (mem_found_of_mem_visited earlier)]⟩
    rw [visit.old v ((h.known v).1 (by rw [known]; exact Option.some_ne_none _)), known]

end Visited

/-- Visiting the next node of the queue keeps the layers. -/
theorem Layered.visit (h : w.Layered neighbours source)
    (popped : w.queue.pop? = some (node, rest)) :
    (w.visit neighbours node rest).Layered neighbours source := by
  have touched := touched_visit neighbours w node rest
  obtain ⟨new, visit⟩ := h.visited_visit popped
  generalize w.visit neighbours node rest = t at touched visit ⊢
  have here := mem_found_of_pop? popped
  constructor
  case known => exact visit.known
  case nodup => exact visit.nodup_found h
  case ordered => exact visit.ordered h popped
  case near => exact visit.near h popped
  case origin =>
    rw [visit.old source ((h.known source).1 (by rw [h.origin]; exact Option.some_ne_none _))]
    exact h.origin
  case root =>
    intro v zero
    rw [touched.distance] at zero
    split at zero
    · cases zero
    · exact h.root v zero
  case parent =>
    intro v k its
    rw [visit.visited]
    rw [touched.distance] at its
    split at its
    · next fresh =>
      refine ⟨node, List.mem_cons_self, ?_, fresh.2⟩
      rw [visit.old node here, distance_eq_some_level ((h.known node).2 here)]
      exact congrArg some (Nat.succ.inj (Option.some.inj its))
    · obtain ⟨u, member, near, step⟩ := h.parent v k its
      refine ⟨u, List.mem_cons_of_mem _ member, ?_, step⟩
      rw [visit.old u (mem_found_of_mem_visited member), near]
  case closed => exact visit.closed h popped
  case predecessors =>
    intro v
    rw [touched.predecessors, visit.visited, List.flatMap_cons, visit.level_old here]
    refine congrArg _ ((h.predecessors v).trans (List.flatMap_congr fun u member => ?_))
    rw [visit.level_old (mem_found_of_mem_visited member)]
    by_cases inside : w.distance[v] = none
    · rw [h.count_eq_zero member inside, List.replicate_zero, ite_self, ite_self]
    · rw [visit.old v ((h.known v).1 inside)]
  case dependency =>
    intro v
    rw [touched.dependency]
    exact h.dependency v

end Visit

/-! ## From start to end -/

/-- Only the entries of visited nodes differ from those of fresh arrays. -/
structure Clean (w : Scratch n α) : Prop where
  paths : ∀ v : Fin n, v ∉ w.visited → w.paths[v] = Scalar.zero
  distance : ∀ v : Fin n, v ∉ w.visited → w.distance[v] = none
  dependency : ∀ v : Fin n, v ∉ w.visited → w.dependency[v] = Scalar.zero
  predecessors : ∀ v : Fin n, v ∉ w.visited → w.predecessors[v] = []

theorem clean_fresh : (fresh : Scratch n α).Clean := by
  constructor <;> simp [fresh]

/-- Clearing nodes resets their entries and no others. -/
theorem foldl_clear (nodes : List (Fin n)) (w : Scratch n α) (v : Fin n) :
    (nodes.foldl clear w).paths[v] = (if v ∈ nodes then Scalar.zero else w.paths[v])
      ∧ (nodes.foldl clear w).distance[v] = (if v ∈ nodes then none else w.distance[v])
      ∧ (nodes.foldl clear w).dependency[v] = (if v ∈ nodes then Scalar.zero else w.dependency[v])
      ∧ (nodes.foldl clear w).predecessors[v] = if v ∈ nodes then [] else w.predecessors[v] := by
  induction nodes generalizing w with
  | nil => simp
  | cons node rest ih =>
    obtain ⟨paths, distance, dependency, predecessors⟩ := ih (w.clear node)
    rw [List.foldl_cons, paths, distance, dependency, predecessors]
    by_cases later : v ∈ rest
    · simp [later]
    · by_cases same : v = node
      · simp [same, clear]
      · simp [later, same, clear, Table.getElem_set_of_ne _ _ (Ne.symm same)]

/-- A reset leaves no trace of the source before. -/
theorem Clean.reset {w : Scratch n α} (h : w.Clean) : w.reset = fresh := by
  have cleared := foldl_clear w.visited w
  have paths := Table.eq_replicate (fun v => (cleared v).1) h.paths
  have distance := Table.eq_replicate (fun v => (cleared v).2.1) h.distance
  have dependency := Table.eq_replicate (fun v => (cleared v).2.2.1) h.dependency
  have predecessors := Table.eq_replicate (fun v => (cleared v).2.2.2) h.predecessors
  rw [Scratch.reset, paths, distance, dependency, predecessors]
  rfl

/-- An exploration starts from clean arrays as from fresh ones. -/
theorem Clean.start {w : Scratch n α} (h : w.Clean) (source : Fin n) :
    w.start source = (fresh : Scratch n α).start source := by
  rw [Scratch.start, Scratch.start, h.reset, clean_fresh.reset]

section Start

variable {neighbours : Fin n → List (Fin n)} {source : Fin n}

theorem visited_start (source : Fin n) : ((fresh : Scratch n α).start source).visited = [] := by
  rw [Scratch.start, clean_fresh.reset]
  rfl

theorem distance_start (source v : Fin n) :
    ((fresh : Scratch n α).start source).distance[v] = if source = v then some 0 else none := by
  rw [Scratch.start, clean_fresh.reset, Table.getElem_set]
  simp [fresh]

theorem paths_start (source v : Fin n) :
    ((fresh : Scratch n α).start source).paths[v] = if source = v then Scalar.one else Scalar.zero := by
  rw [Scratch.start, clean_fresh.reset, Table.getElem_set]
  simp [fresh]

/-- Before the first visit the source waits at level zero, and nothing else is known. -/
theorem layered_start (neighbours : Fin n → List (Fin n)) (source : Fin n) :
    ((fresh : Scratch n α).start source).Layered neighbours source := by
  have queue : ((fresh : Scratch n α).start source).queue.toList = [source] := by
    rw [Scratch.start, clean_fresh.reset]
    rfl
  have found : ((fresh : Scratch n α).start source).found = [source] := by
    rw [Scratch.found, visited_start, queue]
    rfl
  constructor
  case known =>
    intro v
    rw [found, List.mem_singleton, distance_start]
    by_cases same : source = v
    · simp [same]
    · simp [same, Ne.symm same]
  case nodup =>
    rw [found]
    exact List.nodup_singleton _
  case ordered =>
    rw [found]
    exact List.pairwise_singleton _ _
  case near =>
    intro u inside v inQueue
    rw [found, List.mem_singleton] at inside
    rw [queue, List.mem_singleton] at inQueue
    rw [inside, inQueue]
    exact Nat.le_succ _
  case origin => rw [distance_start, if_pos rfl]
  case root =>
    intro v zero
    rw [distance_start] at zero
    split at zero
    · next same => exact same.symm
    · cases zero
  case parent =>
    intro v k its
    rw [distance_start] at its
    split at its <;> cases its
  case closed =>
    rw [visited_start]
    exact nofun
  case predecessors =>
    intro v
    rw [visited_start, Scratch.start, clean_fresh.reset]
    exact Table.getElem_replicate _ _
  case dependency =>
    intro v
    rw [Scratch.start, clean_fresh.reset]
    exact Table.getElem_replicate _ _

/-- However long an exploration goes on, the nodes found stand in layers; if it was not stopped, the queue
is empty. -/
theorem Layered.explore {w : Scratch n α} (h : w.Layered neighbours source) (watch : Watch)
    (polls : Nat) : (w.explore neighbours watch polls).1.Layered neighbours source
      ∧ ((w.explore neighbours watch polls).2.2 = true →
        (w.explore neighbours watch polls).1.queue.pop? = none) := by
  fun_induction Scratch.explore neighbours watch polls w with
  | case1 polls w popped => exact ⟨h, fun _ => popped⟩
  | case2 polls w node rest popped stop => exact ⟨h, nofun⟩
  | case3 polls w node rest popped more ih => exact ih (h.visit popped)

theorem explore_always (neighbours : Fin n → List (Fin n)) (polls : Nat) (w : Scratch n α) :
    (w.explore neighbours .always polls).2.2 = true := by
  fun_induction Scratch.explore neighbours .always polls w with
  | case1 polls w popped => rfl
  | case2 polls w node rest popped stop => cases stop
  | case3 polls w node rest popped more ih => exact ih

end Start

/-! ## Hops -/

section Hops

variable {neighbours : Fin n → List (Fin n)} {source : Fin n} {w : Scratch n α}

omit [Scalar α] in
theorem found_eq_visited (popped : w.queue.pop? = none) : w.found = w.visited.reverse := by
  rw [found, Queue.toList_of_pop?_eq_none popped, List.append_nil]

theorem Layered.nodup_visited (h : w.Layered neighbours source) (popped : w.queue.pop? = none) :
    w.visited.Nodup := by
  have nodup := h.nodup
  rwa [found_eq_visited popped, List.nodup_reverse] at nodup

theorem Layered.mem_visited (h : w.Layered neighbours source) (popped : w.queue.pop? = none)
    {v : Fin n} : v ∈ w.visited ↔ w.distance[v] ≠ none := by
  rw [h.known, found_eq_visited popped, List.mem_reverse]

theorem Layered.walk (h : w.Layered neighbours source) {k : Nat} {v : Fin n}
    (its : w.distance[v] = some k) : walkCount neighbours k source v ≠ 0 := by
  induction k generalizing v with
  | zero =>
    rw [h.root v its]
    exact (Hops.self neighbours source).walk
  | succ k ih =>
    obtain ⟨u, -, near, step⟩ := h.parent v k its
    exact walkCount_add_ne_zero (ih near) (walkCount_one_ne_zero step)

/-- When the queue is empty, every walk leads to a node that is found at no more than its length. -/
theorem Layered.distance_le (h : w.Layered neighbours source) (popped : w.queue.pop? = none) {j : Nat}
    {v : Fin n} (walk : walkCount neighbours j source v ≠ 0) :
    ∃ k, w.distance[v] = some k ∧ k ≤ j := by
  induction j generalizing v with
  | zero =>
    obtain rfl : source = v := by
      by_contra other
      exact walk (if_neg other)
    exact ⟨0, h.origin, Nat.le_refl _⟩
  | succ j ih =>
    rw [walkCount_succ_right] at walk
    obtain ⟨u, -, leads⟩ := Finset.exists_ne_zero_of_sum_ne_zero walk
    obtain ⟨k, known, le⟩ := ih (Nat.ne_zero_of_mul_ne_zero_left leads)
    have step : v ∈ neighbours u :=
      List.count_pos_iff.1 (Nat.pos_of_ne_zero (Nat.ne_zero_of_mul_ne_zero_right leads))
    have member : u ∈ w.visited :=
      (h.mem_visited popped).2 (by rw [known]; exact Option.some_ne_none _)
    obtain ⟨k', known', le'⟩ := h.closed u member v step
    rw [level_of_distance known] at le'
    exact ⟨k', known', by omega⟩

/-- When the queue is empty, distances are numbers of hops. -/
theorem Layered.distance_eq_some_iff (h : w.Layered neighbours source) (popped : w.queue.pop? = none)
    {v : Fin n} {k : Nat} : w.distance[v] = some k ↔ Hops neighbours source v k := by
  constructor
  · intro its
    refine ⟨h.walk its, fun j less => ?_⟩
    by_contra walk
    obtain ⟨k', its', le⟩ := h.distance_le popped walk
    rw [its] at its'
    have := Option.some.inj its'
    omega
  · intro hops
    obtain ⟨j, its, le⟩ := h.distance_le popped hops.walk
    rw [its, Nat.le_antisymm le (hops.le (h.walk its))]

end Hops

end NetworkAnalysis.Centrality.Scratch
