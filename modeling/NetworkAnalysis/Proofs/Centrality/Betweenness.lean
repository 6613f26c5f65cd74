import NetworkAnalysis.Centrality.Betweenness
import NetworkAnalysis.Proofs.Centrality.Shares
import NetworkAnalysis.Proofs.Centrality.Sweep
import NetworkAnalysis.Proofs.LoadSuccess

/-!
# Betweenness centrality in exact arithmetic

The dependency of a source on a node is the sum of the shares that the node has in the shortest paths from
there. One source after the other starts from clean arrays, so that a run that is never told to stop adds up
the shares over all ordered pairs of nodes. Where relationships are followed both ways, the share in the paths
from one node to another is that in the paths back, and half of the sum takes each pair once.
-/

namespace NetworkAnalysis.Centrality

variable {n : Nat}

/-! ## One source -/

open Classical in
/-- The share of a node in the shortest paths between two others; there is none unless all are distinct and
there is a path. -/
noncomputable def shareBetween (steps : Fin n → List (Relationship n)) (source target node : Fin n) : Rat :=
  if source ≠ target ∧ source ≠ node ∧ target ≠ node ∧ Connected steps source target then
    share steps source target node
  else
    0

/-- The source has no share in the paths from it. -/
theorem shareBetween_source (steps : Fin n → List (Relationship n)) (source target : Fin n) :
    shareBetween steps source target source = 0 :=
  if_neg fun all => all.2.1 rfl

section Source

variable {steps : Fin n → List (Relationship n)} {source : Fin n} {w : Scratch n Rat}

/-- The paths to a node together with the walks on from it are the shortest paths through it. -/
theorem paths_mul_reach (h : w.Explored (farEnds steps) source) {v : Fin n} (member : v ∈ w.visited)
    (other : source ≠ v) (t : Fin n) :
    w.paths[v] * Scratch.reach (farEnds steps) w v t
      = (if v = t then 1 else 0) + shareBetween steps source t v := by
  have positive : w.level v ≠ 0 := fun zero => other (zero ▸ h.hops member).eq_source
  by_cases same : v = t
  · subst same
    have nonzero := h.paths_ne_zero member
    rw [if_pos rfl, shareBetween, if_neg fun all => all.2.2.1 rfl, Scratch.reach,
      if_pos ⟨member, Nat.le_refl _⟩, Nat.sub_self]
    simp [walkCount, nonzero]
  rw [if_neg same, zero_add, Scratch.reach, shareBetween]
  by_cases between : t ∈ w.visited ∧ w.level v ≤ w.level t
  · obtain ⟨inside, le⟩ := between
    have hops := h.hops inside
    have distinct : source ≠ t := by
      rintro rfl
      have := hops.unique (Hops.self _ source)
      omega
    rw [if_pos ⟨inside, le⟩, if_pos ⟨distinct, other, Ne.symm same, connected_iff.2 ⟨_, hops⟩⟩, share,
      countP_passes hops (h.hops member) other le, shortestPaths_eq hops, length_walksBetween,
      h.paths_eq member, h.paths_eq inside, Nat.cast_mul, mul_div_assoc]
  · rw [if_neg between, mul_zero]
    split
    · next all =>
      obtain ⟨k, hops⟩ := connected_iff.1 all.2.2.2
      obtain ⟨inside, level⟩ := h.mem_visited_of_hops hops
      rw [share, countP_passes_eq_zero hops, Nat.cast_zero, zero_div]
      intro j hops'
      have := (h.mem_visited_of_hops hops').2
      have := Nat.lt_of_not_le fun le => between ⟨inside, le⟩
      omega
    · rfl

/-- After the sweep the dependency on a node is the sum of its shares. -/
theorem dependency_eq_sum (h : w.Explored (farEnds steps) source) {t : Scratch n Rat}
    (swept : w.Swept (farEnds steps) w.visited t) {v : Fin n} (other : source ≠ v) :
    t.dependency[v] = ∑ target, shareBetween steps source target v := by
  by_cases member : v ∈ w.visited
  · rw [swept.dependency_eq h member, Scratch.onward, Finset.mul_sum,
      Finset.sum_congr rfl fun t _ => paths_mul_reach h member other t, Finset.sum_add_distrib,
      Finset.sum_ite_eq, if_pos (Finset.mem_univ v), add_sub_cancel_left]
  · rw [swept.dependency_eq_zero h member]
    refine (Finset.sum_eq_zero fun target _ => ?_).symm
    rw [shareBetween]
    split
    · next all =>
      obtain ⟨k, hops⟩ := connected_iff.1 all.2.2.2
      rw [share, countP_passes_eq_zero hops, Nat.cast_zero, zero_div]
      intro j hops'
      exact absurd (h.mem_visited_of_hops hops').1 member
    · rfl

end Source

/-! ## All sources -/

/-- An exploration from clean arrays comes to an end, and the sweep after it. -/
theorem Scratch.Clean.singleSource {w : Scratch n Rat} (clean : w.Clean)
    (neighbours : Fin n → List (Fin n)) (polls : Nat) (source : Fin n) :
    ∃ explored : Scratch n Rat, explored.Explored neighbours source
      ∧ explored.Swept neighbours explored.visited (w.singleSource neighbours .always polls source).1
      ∧ (w.singleSource neighbours .always polls source).2.2 = true := by
  have explored := explored_explore neighbours source polls
  have finished := explore_always neighbours polls ((fresh : Scratch n Rat).start source)
  rw [Scratch.singleSource, clean.start]
  generalize ((fresh : Scratch n Rat).start source).explore neighbours .always polls = result
    at explored finished ⊢
  obtain ⟨w', polls', completed⟩ := result
  obtain rfl : completed = true := finished
  exact ⟨w', explored, explored.swept_sweep (List.append_nil _).symm polls'⟩

namespace Accumulation

/-- The visited nodes but the source get their dependencies. -/
theorem getElem_commit {α : Type} [Scalar α] (scores : Table n α) (source : Fin n) (w : Scratch n α)
    (nodup : w.visited.Nodup) (v : Fin n) :
    (commit scores source w)[v]
      = if v ∈ w.visited ∧ v ≠ source then scores[v] + w.dependency[v] else scores[v] := by
  unfold commit
  generalize w.visited = nodes at nodup ⊢
  induction nodes generalizing scores with
  | nil => simp
  | cons node rest ih =>
    obtain ⟨first, nodup⟩ := List.nodup_cons.1 nodup
    rw [List.foldl_cons, ih _ nodup]
    by_cases same : node = v
    · subst same
      by_cases start : node = source
      · simp [start]
      · simp [start, first]
    · have kept : (if node = source then scores
          else scores.set node (scores[node] + w.dependency[node]))[v] = scores[v] := by
        split
        · rfl
        · exact Table.getElem_set_of_ne _ _ same
      rw [kept]
      simp [Ne.symm same]

/-- The arrays are clean after every source, and the scores add up the shares. -/
theorem run_always (steps : Fin n → List (Relationship n)) {a : Accumulation n Rat}
    (clean : a.scratch.Clean) (sources : List (Fin n)) :
    (run (farEnds steps) .always sources a).2 = true
      ∧ (run (farEnds steps) .always sources a).1.scratch.Clean
      ∧ ∀ v : Fin n, (run (farEnds steps) .always sources a).1.scores[v] = a.scores[v]
          + (sources.map fun source => ∑ target, shareBetween steps source target v).sum := by
  induction sources generalizing a with
  | nil => exact ⟨rfl, clean, fun v => (add_zero _).symm⟩
  | cons source rest ih =>
    obtain ⟨scores, scratch, polls, progress⟩ := a
    obtain ⟨explored, h, swept, finished⟩ := clean.singleSource (farEnds steps) polls source
    rw [run]
    generalize scratch.singleSource (farEnds steps) .always polls source = result at swept finished ⊢
    obtain ⟨scratch', polls', completed⟩ := result
    obtain rfl : completed = true := finished
    obtain ⟨completed, clean', added⟩ := @ih
      { scores := commit scores source scratch'
        scratch := scratch', polls := polls'
        progress := progress.push (fractionAt source) } (swept.clean h)
    refine ⟨completed, clean', fun v => ?_⟩
    refine (added v).trans ?_
    rw [List.map_cons, List.sum_cons, ← add_assoc]
    refine congrArg (· + _) ?_
    have visited : scratch'.visited.Nodup := by
      rw [swept.visited]
      exact h.nodup
    dsimp only
    rw [getElem_commit _ _ _ visited]
    by_cases other : source = v
    · subst other
      rw [if_neg fun both => both.2 rfl, Finset.sum_eq_zero fun target _ => shareBetween_source steps _ target,
        add_zero]
    · rw [← dependency_eq_sum h swept other]
      split
      · rfl
      · next outside =>
        rw [swept.dependency_eq_zero h fun member => outside ⟨swept.visited ▸ member, Ne.symm other⟩, add_zero]

/-- No number that a run over all sources divides by is zero. -/
structure NonzeroDivisors (neighbours : Fin n → List (Fin n)) : Prop where
  /-- Every node has paths when it is swept, whatever sources came before. -/
  paths : ∀ before source after, List.finRange n = before ++ source :: after →
    let a := (run neighbours .always before (start : Accumulation n Rat)).1
    let explored := (a.scratch.start source).explore neighbours .always a.polls
    ∀ earlier node later, explored.1.visited = earlier ++ node :: later →
      (Scratch.sweep .always explored.2.1 earlier explored.1).1.paths[node] ≠ 0
  /-- Fractions are taken of a number of steps. -/
  fraction : 1 < n → (Scalar.ofNat (n - 1) : Rat) ≠ 0
  /-- Scores are halved. -/
  two : (Scalar.two : Rat) ≠ 0

theorem nonzeroDivisors (steps : Fin n → List (Relationship n)) : NonzeroDivisors (farEnds steps) := by
  constructor
  case paths =>
    intro before source after _
    dsimp only
    have clean := (run_always steps (a := start) Scratch.clean_fresh before).2.1
    generalize (run (farEnds steps) .always before (start : Accumulation n Rat)).1 = a at clean
    rw [clean.start]
    intro earlier node later split
    exact (Scratch.explored_explore (farEnds steps) source a.polls).divisor_ne_zero split _
  case fraction =>
    intro several zero
    have : n - 1 = 0 := Nat.cast_eq_zero.1 zero
    omega
  case two =>
    intro zero
    exact absurd (Nat.cast_eq_zero.1 zero) (by decide)

end Accumulation

/-! ## The scores -/

section Scores

variable {steps : Fin n → List (Relationship n)}

/-- The sum of all shares of a node, over ordered pairs of ends. -/
theorem score_always (steps : Fin n → List (Relationship n)) (halved : Bool) :
    let report : Report Rat (Scores n Rat) := score (farEnds steps) halved .always
    report.completed = true ∧ ∀ v : Fin n, report.value.values[v]
      = (∑ source, ∑ target, shareBetween steps source target v) / if halved then 2 else 1 := by
  obtain ⟨completed, -, added⟩ :=
    Accumulation.run_always steps (a := .start) Scratch.clean_fresh (List.finRange n)
  refine ⟨completed, fun v => ?_⟩
  have total : (Accumulation.run (farEnds steps) .always (List.finRange n) .start).1.scores[v]
      = ∑ source, ∑ target, shareBetween steps source target v := by
    have unscored : (Accumulation.start : Accumulation n Rat).scores[v] = 0 := Table.getElem_replicate _ _
    rw [added, unscored, zero_add, Fin.sum_univ_def]
  unfold score
  cases halved with
  | true =>
    dsimp only
    rw [if_pos rfl, if_pos rfl, Table.getElem_map, total]
    rfl
  | false =>
    dsimp only
    rw [if_neg Bool.false_ne_true, if_neg Bool.false_ne_true, total, div_one]

theorem Reversed.shareBetween_eq {back : Fin n → List (Relationship n)} (h : Reversed steps back)
    (source target node : Fin n) : shareBetween steps source target node = shareBetween back target source node := by
  unfold shareBetween
  by_cases all : source ≠ target ∧ source ≠ node ∧ target ≠ node ∧ Connected steps source target
  · obtain ⟨other, first, last, connected⟩ := all
    rw [if_pos ⟨other, first, last, connected⟩, if_pos ⟨other.symm, last, first, h.connected connected⟩,
      h.share_eq connected first last]
  · rw [if_neg all, if_neg]
    rintro ⟨other, last, first, connected⟩
    exact all ⟨other.symm, first, last, h.symm.connected connected⟩

/-- A symmetric sum over ordered pairs takes each pair twice. -/
theorem sum_pairs (f : Fin n → Fin n → Rat) (symmetric : ∀ i j, f i j = f j i)
    (diagonal : ∀ i, f i i = 0) : ∑ i, ∑ j, f i j = (∑ i, ∑ j, if i < j then f i j else 0) * 2 := by
  have split : ∀ i j, f i j = (if i < j then f i j else 0) + if j < i then f j i else 0 := by
    intro i j
    rcases lt_trichotomy i j with less | rfl | more
    · rw [if_pos less, if_neg (lt_asymm less), add_zero]
    · rw [diagonal, ite_self, add_zero]
    · rw [if_neg (lt_asymm more), if_pos more, zero_add, symmetric]
  calc ∑ i, ∑ j, f i j
    _ = (∑ i, ∑ j, if i < j then f i j else 0) + ∑ i, ∑ j, if j < i then f j i else 0 := by
      simp only [← Finset.sum_add_distrib, ← split]
    _ = (∑ i, ∑ j, if i < j then f i j else 0) * 2 := by
      rw [Finset.sum_comm, mul_two]

/-- What leads on against the relationships leads back along them. -/
theorem reversed_incoming {α : Type} (g : Graph α) : Reversed (g.along .incoming) (g.along .outgoing) := by
  intro u v
  change ((g.arrivals u).map Relationship.other).count v
    = ((g.relationships v .outgoing ++ []).map Relationship.other).count u
  rw [List.append_nil, Graph.arrivals, List.map_flatMap, List.count_flatMap, ← Fin.sum_univ_def,
    Finset.sum_eq_single v _ fun outside => absurd (Finset.mem_univ v) outside]
  · rw [Function.comp_apply, List.map_map, List.count, List.count, List.countP_map, List.countP_map,
      List.countP_filter]
    refine List.countP_congr fun r _ => ?_
    simp
  · intro other _ different
    rw [Function.comp_apply, List.map_map, List.count_eq_zero]
    intro member
    obtain ⟨r, -, rfl⟩ := List.mem_map.1 member
    exact different rfl

/-- What leads on both ways leads on in one direction or in the other. -/
theorem count_along_both {α : Type} (g : Graph α) (u v : Fin g.size) :
    (farEnds (g.along .both) u).count v
      = (farEnds (g.along .outgoing) u).count v + (farEnds (g.along .outgoing) v).count u := by
  rw [← reversed_incoming g u v, ← List.count_append, ← List.map_append]
  change _ = (((g.relationships u .outgoing ++ []) ++ ([] ++ g.arrivals u)).map Relationship.other).count v
  rw [List.append_nil]
  rfl

/-- Followed both ways, as many relationships lead from one node to another as back. -/
theorem reversed_both {α : Type} (g : Graph α) : Reversed (g.along .both) (g.along .both) := by
  intro u v
  rw [count_along_both, count_along_both, Nat.add_comm]

/-- In a loaded graph the relationships at a node are those that the outgoing lists say. -/
theorem neighbours_eq_farEnds {α : Type} [Scalar α] {g : Graph α} (loaded : g.Loaded) (direction : Direction) :
    g.neighbours direction = farEnds (g.along direction) := by
  obtain ⟨storage, settings, origin, loaded⟩ := loaded
  funext node
  rw [Graph.neighbours, (Loading.stored_of_loadInto loaded).shows.relationships_eq_along]

theorem betweenness_always {g : Graph Rat} (loaded : g.Loaded) (direction : Direction) :
    (betweenness g direction .always).completed = true
      ∧ ∀ v : Fin g.size, (betweenness g direction .always).value.values[v]
          = (∑ s, ∑ t, shareBetween (g.along direction) s t v) / if direction = .both then 2 else 1 := by
  rw [betweenness, neighbours_eq_farEnds loaded]
  obtain ⟨completed, values⟩ := score_always (g.along direction) (direction == .both)
  refine ⟨completed, fun v => (values v).trans ?_⟩
  cases direction <;> rfl

/-- The score of a node is the sum of its shares over all pairs of other nodes, ordered where one direction
is followed. -/
theorem betweenness_exact {g : Graph Rat} (loaded : g.Loaded) (direction : Direction) :
    (betweenness g direction .always).completed = true
      ∧ (∀ v : Fin g.size, (betweenness g direction .always).value.values[v]
          = if direction = .both then
              ∑ s, ∑ t, if s < t then shareBetween (g.along .both) s t v else 0
            else
              ∑ s, ∑ t, shareBetween (g.along direction) s t v)
      ∧ Accumulation.NonzeroDivisors (g.neighbours direction) := by
  obtain ⟨completed, values⟩ := betweenness_always loaded direction
  refine ⟨completed, fun v => ?_, ?_⟩
  · rw [values]
    by_cases both : direction = .both
    · subst both
      rw [if_pos rfl, if_pos rfl, sum_pairs _ (fun s t => (reversed_both g).shareBetween_eq s t v)
        fun s => if_neg fun all => all.1 rfl]
      exact mul_div_cancel_right₀ _ two_ne_zero
    · rw [if_neg both, if_neg both, div_one]
  · rw [neighbours_eq_farEnds loaded]
    exact Accumulation.nonzeroDivisors _

/-- The junctions are a loaded graph, and what leads on from each of them is followed both ways. -/
theorem betweenness_exact_junctions : ∃ g : Graph Rat,
    Loading.loadInto .dense Loading.fiveByDefault Loading.junctions = .ok g ∧ g.Loaded
    ∧ ∀ v : Fin g.size, (betweenness g .both .always).value.values[v]
      = ∑ s, ∑ t, if s < t then shareBetween (g.along .both) s t v else 0 := by
  obtain ⟨g, loaded, -⟩ := Loading.exists_load_junctions .dense
  have isLoaded : g.Loaded := ⟨_, _, _, loaded⟩
  exact ⟨g, loaded, isLoaded, fun v => ((betweenness_exact isLoaded .both).2.1 v).trans (if_pos rfl)⟩

end Scores

end NetworkAnalysis.Centrality
