import NetworkAnalysis.Adjacency.CountingSort
import NetworkAnalysis.Proofs.Paged

/-!
# The counting sort collects what enters each node

The arrays of the sort are read as functions on places. The counting pass leaves the number of arcs that
enter each node, the running sums turn these into the number of arcs with a smaller target, and the second
pass keeps the invariant `Scattered`: of the arcs dropped so far, those with target `v` stand in order from
the first place of `v` on, and the cursor of `v` is behind them.
-/

namespace NetworkAnalysis.Adjacency

/-! ## Arrays of numbers -/

/-- Arrays of numbers that behave as lists. -/
class LawfulCells (σ : Type) [Cells σ] where
  /-- The array holds the numbers of a list. -/
  Holds : σ → List Nat → Prop
  holds_zeros (size : Nat) : Holds (Cells.zeros size) (List.replicate size 0)
  get_eq {cells : σ} {numbers : List Nat} (h : Holds cells numbers) (place : Nat) :
    Cells.get cells place = numbers.getD place 0
  holds_modify {cells : σ} {numbers : List Nat} (h : Holds cells numbers) (place : Nat) (f : Nat → Nat) :
    Holds (Cells.modify cells place f) (numbers.modify place f)

instance : LawfulCells (Array Nat) where
  Holds cells numbers := cells.toList = numbers
  holds_zeros size := Array.toList_replicate
  get_eq h place := by
    subst h
    simp [Cells.get, Array.getD_eq_getD_getElem?]
  holds_modify h place f := by
    subst h
    exact Array.toList_modify

instance : LawfulCells (Paged Nat) where
  Holds cells numbers := cells.WellFormed ∧ cells.toList = numbers
  holds_zeros size := ⟨Paged.wellFormed_replicate size 0, Paged.toList_replicate size 0⟩
  get_eq h place := by
    obtain ⟨well, rfl⟩ := h
    simp [Cells.get, Paged.get?_eq_getElem?_toList well]
  holds_modify h place f := by
    obtain ⟨well, rfl⟩ := h
    exact ⟨Paged.wellFormed_modify well place f, Paged.toList_modify well place f⟩

variable {σ : Type} [Cells σ] [LawfulCells σ]

/-- The array has `size` places, and `f` says what they hold. -/
def Reads (cells : σ) (size : Nat) (f : Nat → Nat) : Prop :=
  LawfulCells.Holds cells ((List.range size).map f)

namespace Reads

variable {cells : σ} {size : Nat} {f g : Nat → Nat}

theorem congr (h : Reads cells size f) (same : ∀ place < size, f place = g place) :
    Reads cells size g := by
  have : (List.range size).map f = (List.range size).map g :=
    List.map_congr_left fun place member => same place (List.mem_range.1 member)
  unfold Reads at h ⊢
  rwa [← this]

theorem zeros (size : Nat) : Reads (Cells.zeros size : σ) size fun _ => 0 := by
  unfold Reads
  rw [List.map_const', List.length_range]
  exact LawfulCells.holds_zeros size

theorem get_eq (h : Reads cells size f) {place : Nat} (inside : place < size) :
    Cells.get cells place = f place := by
  rw [LawfulCells.get_eq h place, List.getD_eq_getElem?_getD, List.getElem?_map,
    List.getElem?_range inside]
  rfl

theorem modify (h : Reads cells size f) (place : Nat) (change : Nat → Nat) :
    Reads (Cells.modify cells place change) size
      fun other => if other = place then change (f other) else f other := by
  have changed : ((List.range size).map f).modify place change
      = (List.range size).map fun other => if other = place then change (f other) else f other := by
    refine List.ext_getElem? fun other => ?_
    rw [List.getElem?_modify, List.getElem?_map, List.getElem?_map]
    rcases Nat.lt_or_ge other size with inside | outside
    · rw [List.getElem?_range inside]
      by_cases same : other = place
      · subst same
        simp
      · have : place ≠ other := fun e => same e.symm
        simp [same, this]
    · rw [List.getElem?_eq_none (by simpa using outside)]
      rfl
  unfold Reads at h ⊢
  rw [← changed]
  exact LawfulCells.holds_modify h place change

theorem set (h : Reads cells size f) (place value : Nat) :
    Reads (Cells.set cells place value) size fun other => if other = place then value else f other :=
  h.modify place _

theorem add (h : Reads cells size f) (place delta : Nat) :
    Reads (Cells.add cells place delta) size
      fun other => f other + if other = place then delta else 0 := by
  refine (h.modify place (· + delta)).congr fun other _ => ?_
  split <;> rfl

theorem getElem?_eq {cells : Array Nat} (h : Reads cells size f) {place : Nat}
    (inside : place < size) : cells[place]? = some (f place) := by
  have holds : cells.toList = (List.range size).map f := h
  rw [← Array.getElem?_toList, holds, List.getElem?_map, List.getElem?_range inside]
  rfl

theorem get?_eq {cells : Paged Nat} (h : Reads cells size f) {place : Nat} (inside : place < size) :
    cells.get? place = some (f place) := by
  obtain ⟨well, holds⟩ : cells.WellFormed ∧ cells.toList = (List.range size).map f := h
  rw [Paged.get?_eq_getElem?_toList well, holds, List.getElem?_map, List.getElem?_range inside]
  rfl

end Reads

/-! ## Where the part of a node begins -/

variable {n : Nat}

/-- The arcs that enter a node. -/
def entering (arcs : List (Arc n)) (node : Nat) : List (Arc n) :=
  arcs.filter fun arc => arc.target.val = node

/-- The number of arcs with a target below a node: the place where the part of the node begins. -/
def firstPlace (arcs : List (Arc n)) (node : Nat) : Nat :=
  arcs.countP fun arc => arc.target.val < node

theorem firstPlace_zero (arcs : List (Arc n)) : firstPlace arcs 0 = 0 := by
  simp [firstPlace]

theorem firstPlace_add_one (arcs : List (Arc n)) (node : Nat) :
    firstPlace arcs (node + 1) = firstPlace arcs node + (entering arcs node).length := by
  unfold firstPlace entering
  induction arcs with
  | nil => rfl
  | cons arc arcs ih =>
    simp only [List.countP_cons, List.filter_cons, ih]
    rcases Nat.lt_trichotomy arc.target.val node with below | here | above
    · simp [below, Nat.lt_succ_of_lt below, Nat.ne_of_lt below]
      omega
    · simp [here]
      omega
    · have notBelow : ¬ arc.target.val < node + 1 := by omega
      simp [notBelow, Nat.lt_asymm above, Nat.ne_of_gt above]

theorem firstPlace_size (arcs : List (Arc n)) : firstPlace arcs n = arcs.length := by
  rw [firstPlace, List.countP_eq_length]
  simp

theorem firstPlace_mono (arcs : List (Arc n)) {node node' : Nat} (h : node ≤ node') :
    firstPlace arcs node ≤ firstPlace arcs node' := by
  induction h with
  | refl => exact Nat.le_refl _
  | step _ ih => exact Nat.le_trans ih (by rw [firstPlace_add_one]; exact Nat.le_add_right _ _)

/-- The parts of two nodes have no place in common. -/
theorem eq_of_place_eq {arcs : List (Arc n)} {node node' k k' : Nat}
    (inside : k < (entering arcs node).length) (inside' : k' < (entering arcs node').length)
    (same : firstPlace arcs node + k = firstPlace arcs node' + k') : node = node' := by
  have part := firstPlace_add_one arcs node
  have part' := firstPlace_add_one arcs node'
  rcases Nat.lt_trichotomy node node' with less | equal | greater
  · have upTo : firstPlace arcs (node + 1) ≤ firstPlace arcs node' := firstPlace_mono arcs less
    omega
  · exact equal
  · have upTo : firstPlace arcs (node' + 1) ≤ firstPlace arcs node := firstPlace_mono arcs greater
    omega

/-- The part of a node lies within the whole. -/
theorem place_lt_length {arcs : List (Arc n)} {node k : Nat} (bound : node < n)
    (inside : k < (entering arcs node).length) : firstPlace arcs node + k < arcs.length := by
  have part := firstPlace_add_one arcs node
  have whole : firstPlace arcs (node + 1) ≤ firstPlace arcs n := firstPlace_mono arcs bound
  rw [firstPlace_size] at whole
  omega

/-! ## Counting -/

/-- The counting pass adds, one place behind each node, the number of arcs that enter it. -/
theorem reads_foldl_tally (arcs : List (Arc n)) {counts : σ} {f : Nat → Nat}
    (h : Reads counts (n + 1) f) :
    Reads (arcs.foldl (fun counts arc => Cells.add counts (arc.target + 1) 1) counts) (n + 1)
      fun place => f place + arcs.countP fun arc => arc.target.val + 1 = place := by
  induction arcs generalizing counts f with
  | nil => exact h
  | cons arc arcs ih =>
    refine (ih (h.add (arc.target + 1) 1)).congr fun place _ => ?_
    rw [List.countP_cons]
    by_cases here : arc.target.val + 1 = place
    · simp [here]
      omega
    · have : ¬ place = arc.target.val + 1 := fun e => here e.symm
      simp [here, this]

theorem reads_tally (arcs : List (Arc n)) :
    Reads (tally arcs : σ) (n + 1) fun place => arcs.countP fun arc => arc.target.val + 1 = place := by
  have zeros : Reads (Cells.zeros (n + 1) : σ) (n + 1) fun _ => 0 := Reads.zeros (n + 1)
  refine (reads_foldl_tally arcs zeros).congr fun place _ => ?_
  rw [Nat.zero_add]

/-- The running sums of the counts are the first places of the nodes. -/
theorem reads_runningSums (arcs : List (Arc n)) :
    Reads (runningSums n (tally arcs) : σ) (n + 1) (firstPlace arcs) := by
  have summed : ∀ size ≤ n, Reads (runningSums size (tally arcs) : σ) (n + 1) fun place =>
      if place ≤ size then firstPlace arcs place
      else arcs.countP fun arc => arc.target.val + 1 = place := by
    intro size
    induction size with
    | zero =>
      intro _
      refine (reads_tally arcs).congr fun place _ => ?_
      rcases Nat.eq_zero_or_pos place with rfl | positive
      · simp [firstPlace_zero]
      · rw [if_neg (Nat.not_le.2 positive)]
    | succ size ih =>
      intro bound
      have before := ih (Nat.le_of_succ_le bound)
      have sum : Cells.get (runningSums size (tally arcs) : σ) size = firstPlace arcs size := by
        rw [before.get_eq (by omega), if_pos (Nat.le_refl size)]
      have entered : (arcs.countP fun arc => arc.target.val + 1 = size + 1)
          = (entering arcs size).length := by
        simp [entering, List.countP_eq_length_filter]
      unfold runningSums at before sum ⊢
      rw [List.range_succ, List.foldl_append, List.foldl_cons, List.foldl_nil, sum]
      refine (before.add (size + 1) _).congr fun place _ => ?_
      rcases Nat.lt_trichotomy place (size + 1) with less | rfl | greater
      · simp [Nat.le_of_lt_succ less, Nat.le_of_lt less, Nat.ne_of_lt less]
      · rw [if_neg (Nat.not_succ_le_self size), if_pos rfl, if_pos (Nat.le_refl _), entered,
          firstPlace_add_one, Nat.add_comm]
      · have : ¬ place ≤ size := by omega
        have : ¬ place ≤ size + 1 := by omega
        simp [*, Nat.ne_of_gt greater]
  refine (summed n (Nat.le_refl n)).congr fun place inside => ?_
  rw [if_pos (Nat.le_of_lt_succ inside)]

/-- The copy of the first cells reads as the original. -/
theorem reads_firstCells {cells : σ} {size : Nat} {f : Nat → Nat} (h : Reads cells (size + 1) f) :
    Reads (firstCells size cells) size f := by
  have copied : ∀ k ≤ size, Reads ((List.range k).foldl
      (fun copy place => Cells.set copy place (Cells.get cells place)) (Cells.zeros size : σ)) size
      fun place => if place < k then f place else 0 := by
    intro k
    induction k with
    | zero => intro _; exact (Reads.zeros size).congr fun place _ => by simp
    | succ k ih =>
      intro bound
      rw [List.range_succ, List.foldl_append, List.foldl_cons, List.foldl_nil,
        h.get_eq (Nat.lt_succ_of_lt (Nat.lt_of_succ_le bound))]
      refine ((ih (Nat.le_of_succ_le bound)).set k (f k)).congr fun place _ => ?_
      rcases Nat.lt_trichotomy place k with less | rfl | greater
      · simp [less, Nat.ne_of_lt less, Nat.lt_succ_of_lt less]
      · simp
      · have : ¬ place < k + 1 := by omega
        simp [this, Nat.ne_of_gt greater, Nat.lt_asymm greater]
  exact (copied size (Nat.le_refl size)).congr fun place inside => by rw [if_pos inside]

/-! ## Scattering -/

/-- The arcs of `dropped`, which are the first ones of `arcs`, are in their places. -/
structure Scattered (arcs dropped : List (Arc n)) (s : Scatter σ) : Prop where
  cursors : Reads s.cursors n fun node => firstPlace arcs node + (entering dropped node).length
  sources : ∃ f, Reads s.sources arcs.length f ∧ ∀ (node : Fin n) (k : Nat) (arc : Arc n),
    (entering dropped node)[k]? = some arc → f (firstPlace arcs node + k) = arc.source
  ids : ∃ f, Reads s.ids arcs.length f ∧ ∀ (node : Fin n) (k : Nat) (arc : Arc n),
    (entering dropped node)[k]? = some arc → f (firstPlace arcs node + k) = arc.id

theorem entering_append (front back : List (Arc n)) (node : Nat) :
    entering (front ++ back) node = entering front node ++ entering back node := by
  simp [entering]

theorem entering_singleton (arc : Arc n) (node : Nat) :
    entering [arc] node = if arc.target.val = node then [arc] else [] := by
  by_cases here : arc.target.val = node <;> simp [entering, here]

/-- One more value put behind the values of its target; the values of all arcs before stay in place. -/
theorem placed_drop {arcs dropped rest : List (Arc n)} {arc : Arc n}
    (all : arcs = dropped ++ arc :: rest) {value : Arc n → Nat} {cells : σ} {f : Nat → Nat}
    (reads : Reads cells arcs.length f)
    (placed : ∀ (node : Fin n) (k : Nat) (other : Arc n),
      (entering dropped node)[k]? = some other → f (firstPlace arcs node + k) = value other) :
    ∃ f', Reads (Cells.set cells
        (firstPlace arcs arc.target + (entering dropped arc.target).length) (value arc)) arcs.length f' ∧
      ∀ (node : Fin n) (k : Nat) (other : Arc n), (entering (dropped ++ [arc]) node)[k]? = some other →
        f' (firstPlace arcs node + k) = value other := by
  have prefixes : ∀ node : Nat, (entering (dropped ++ [arc]) node).length
      ≤ (entering arcs node).length := by
    intro node
    have cut : arcs = dropped ++ [arc] ++ rest := by rw [all, List.append_cons]
    rw [cut, entering_append _ rest, List.length_append]
    exact Nat.le_add_right _ _
  have room : (entering dropped arc.target).length < (entering arcs arc.target).length := by
    have := prefixes arc.target
    rw [entering_append, entering_singleton, if_pos rfl, List.length_append] at this
    exact this
  refine ⟨_, reads.set _ _, ?_⟩
  intro node k other found
  have inside := (List.getElem?_eq_some_iff.1 found).1
  rw [entering_append, entering_singleton] at found
  by_cases last : arc.target = node ∧ k = (entering dropped node).length
  · obtain ⟨rfl, rfl⟩ := last
    rw [if_pos rfl, List.getElem?_append_right (Nat.le_refl _), Nat.sub_self,
      List.getElem?_cons_zero, Option.some.injEq] at found
    rw [if_pos rfl, found]
  · -- the place is another one: of another node, or an earlier one of the same node
    have elsewhere : firstPlace arcs node + k
        ≠ firstPlace arcs arc.target + (entering dropped arc.target).length := by
      intro same
      have sameNode : node = arc.target :=
        Fin.ext (eq_of_place_eq (Nat.lt_of_lt_of_le inside (prefixes node)) room same)
      subst sameNode
      exact last ⟨rfl, Nat.add_left_cancel same⟩
    rw [if_neg elsewhere]
    refine placed node k other ?_
    by_cases here : arc.target.val = node.val
    · rw [if_pos here] at found
      rw [entering_append, entering_singleton, if_pos here, List.length_append,
        List.length_singleton] at inside
      have earlier : k < (entering dropped node).length :=
        Nat.lt_of_le_of_ne (Nat.le_of_lt_succ inside) fun e => last ⟨Fin.ext here, e⟩
      rwa [List.getElem?_append_left earlier] at found
    · rwa [if_neg here, List.append_nil] at found

theorem Scattered.drop {arcs dropped rest : List (Arc n)} {arc : Arc n} {s : Scatter σ}
    (all : arcs = dropped ++ arc :: rest) (h : Scattered arcs dropped s) :
    Scattered arcs (dropped ++ [arc]) (s.drop arc) := by
  obtain ⟨cursors, ⟨f, sources, placedSources⟩, ⟨g, ids, placedIds⟩⟩ := h
  have place := cursors.get_eq arc.target.isLt
  unfold Scatter.drop
  simp only [place]
  refine ⟨?_, placed_drop all sources placedSources, placed_drop all ids placedIds⟩
  refine (cursors.add arc.target 1).congr fun node _ => ?_
  rw [entering_append, entering_singleton, List.length_append]
  by_cases here : arc.target.val = node
  · simp [here, Nat.add_assoc]
  · have : ¬ node = arc.target.val := fun e => here e.symm
    simp [here, this]

theorem Scattered.foldl_drop {arcs : List (Arc n)} (rest : List (Arc n)) {dropped : List (Arc n)}
    {s : Scatter σ} (all : arcs = dropped ++ rest) (h : Scattered arcs dropped s) :
    Scattered arcs arcs (rest.foldl Scatter.drop s) := by
  induction rest generalizing dropped s with
  | nil =>
    rw [List.append_nil] at all
    rwa [all] at h ⊢
  | cons arc rest ih =>
    exact ih (by rw [all, List.append_assoc]; rfl) (h.drop all)

/-! ## The sorted arcs -/

/-- What enters each node, as the arcs say. -/
structure Incoming.Sorts (i : Incoming σ) (arcs : List (Arc n)) : Prop where
  firsts : Reads i.firsts (n + 1) (firstPlace arcs)
  sources : ∃ f, Reads i.sources arcs.length f ∧ ∀ (node : Fin n) (k : Nat) (arc : Arc n),
    (entering arcs node)[k]? = some arc → f (firstPlace arcs node + k) = arc.source
  ids : ∃ f, Reads i.ids arcs.length f ∧ ∀ (node : Fin n) (k : Nat) (arc : Arc n),
    (entering arcs node)[k]? = some arc → f (firstPlace arcs node + k) = arc.id

theorem sorts_countingSort (arcs : List (Arc n)) : (countingSort arcs : Incoming σ).Sorts arcs := by
  have firsts : Reads (runningSums n (tally arcs) : σ) (n + 1) (firstPlace arcs) :=
    reads_runningSums arcs
  have start : Scattered arcs []
      ({ cursors := firstCells n (runningSums n (tally arcs))
         sources := Cells.zeros arcs.length
         ids := Cells.zeros arcs.length } : Scatter σ) := by
    refine ⟨(reads_firstCells firsts).congr fun _ _ => rfl, ⟨_, Reads.zeros _, ?_⟩,
      ⟨_, Reads.zeros _, ?_⟩⟩
    · intro node k arc found
      simp [entering] at found
    · intro node k arc found
      simp [entering] at found
  obtain ⟨-, sources, ids⟩ := start.foldl_drop arcs (List.nil_append arcs).symm
  exact ⟨firsts, sources, ids⟩

end NetworkAnalysis.Adjacency
