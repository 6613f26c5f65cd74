import NetworkAnalysis.Adjacency.Flat
import NetworkAnalysis.Adjacency.Packed
import NetworkAnalysis.Proofs.Compressed
import NetworkAnalysis.Proofs.Rows

/-!
# Both storages show the relationships of their rows

Flat arrays and compressed lists are built from rows of targets in different ways and turned around by the
same sort. Either way the traversals show `leaving rows node` and `arriving rows node`; the compressed
lists ask for rows that ascend and for nodes that fit into words.
-/

namespace NetworkAnalysis.Adjacency

variable {n : Nat} {σ : Type}

/-! ## Flat arrays -/

namespace Flat

/-- The offsets of lists: the number of entries of the lists before each place. -/
theorem getElem?_offsets {β : Type} (start : Nat) (lists : List (List β)) {k : Nat}
    (bound : k ≤ lists.length) :
    (offsets start (lists.map List.length))[k]? = some (start + (lists.take k).flatten.length) := by
  induction lists generalizing start k with
  | nil =>
    obtain rfl : k = 0 := Nat.le_zero.1 bound
    rfl
  | cons list lists ih =>
    cases k with
    | zero => rfl
    | succ k =>
      rw [List.map_cons, offsets, List.getElem?_cons_succ, ih _ (Nat.le_of_succ_le_succ bound),
        List.take_succ_cons, List.flatten_cons, List.length_append, Nat.add_assoc]

theorem extent_offsets (rows : Table n (List (Fin n))) (node : Fin n) :
    extent (offsets 0 (rows.toList.map List.length)).toArray node
      = (before rows node, rows[node].length) := by
  have start := getElem?_offsets 0 rows.toList (k := node) (by simp [Nat.le_of_lt])
  have stop := getElem?_offsets 0 rows.toList (k := node + 1) (by rw [Table.length_toList]; exact node.isLt)
  have size := before_add_one rows node
  rw [Nat.zero_add] at start stop
  unfold before at size ⊢
  simp only [extent, Array.getD_eq_getD_getElem?, List.getElem?_toArray, start, stop, Option.getD_some,
    Prod.mk.injEq, true_and]
  omega

/-- Where the entries of a list stand one behind the other, the list is shown. -/
theorem visitPlaces_eq_visitList {entry : Nat → Option (Relationship n)}
    (visitor : Visitor σ (Relationship n)) {list : List (Relationship n)} {place : Nat}
    (stands : ∀ (k : Nat) (relationship : Relationship n),
      list[k]? = some relationship → entry (place + k) = some relationship) (state : σ) :
    visitPlaces entry visitor list.length place state = visitList visitor state list := by
  induction list generalizing place state with
  | nil => rfl
  | cons relationship list ih =>
    have others : ∀ (k : Nat) (other : Relationship n),
        list[k]? = some other → entry (place + 1 + k) = some other := by
      intro k other found
      rw [Nat.add_assoc, Nat.add_comm 1 k]
      exact stands (k + 1) other found
    rw [List.length_cons, visitPlaces, show entry place = some relationship from stands 0 _ rfl, visitList]
    simp only
    rcases visitor state relationship with ⟨state', more⟩
    cases more with
    | false => rfl
    | true => exact ih others state'

theorem outEntry_eq (rows : Table n (List (Fin n))) (node : Fin n) (k : Nat)
    (relationship : Relationship n) (found : (leaving rows node)[k]? = some relationship) :
    outEntry rows.toList.flatten.toArray (before rows node + k) = some relationship := by
  have inside : k < rows[node].length := by
    simpa using (List.getElem?_eq_some_iff.1 found).1
  rw [getElem?_leaving, List.getElem?_eq_getElem inside] at found
  rw [outEntry, List.getElem?_toArray, getElem?_flatten_before rows node inside]
  exact found

theorem visitRow_leaving (rows : Table n (List (Fin n))) (node : Fin n)
    (visitor : Visitor σ (Relationship n)) (state : σ) :
    visitRow (offsets 0 (rows.toList.map List.length)).toArray
        (outEntry rows.toList.flatten.toArray) node visitor state
      = visitList visitor state (leaving rows node) := by
  unfold visitRow
  rw [extent_offsets, ← length_leaving]
  exact visitPlaces_eq_visitList visitor (outEntry_eq rows node) state

theorem readArcs_eq (rows : Table n (List (Fin n))) :
    readArcs (offsets 0 (rows.toList.map List.length)).toArray rows.toList.flatten.toArray
      = arcs rows := by
  unfold readArcs arcs
  congr 1
  funext node
  exact collected_eq (visitRow_leaving rows node)

theorem extent_firsts {i : Incoming (Array Nat)} {all : List (Arc n)} (sorts : i.Sorts all)
    (node : Fin n) :
    extent i.firsts node = (firstPlace all node, (entering all node).length) := by
  have start : i.firsts[node.val]? = some (firstPlace all node) :=
    sorts.firsts.getElem?_eq (Nat.lt_succ_of_lt node.isLt)
  have stop : i.firsts[node.val + 1]? = some (firstPlace all (node + 1)) :=
    sorts.firsts.getElem?_eq (Nat.succ_lt_succ node.isLt)
  have size := firstPlace_add_one all node
  simp only [extent, Array.getD_eq_getD_getElem?, start, stop, Option.getD_some, Prod.mk.injEq, true_and]
  omega

theorem inEntry_eq {i : Incoming (Array Nat)} {all : List (Arc n)} (sorts : i.Sorts all)
    (node : Fin n) (k : Nat) (relationship : Relationship n)
    (found : ((entering all node).map Arc.reversed)[k]? = some relationship) :
    inEntry i.sources i.ids (firstPlace all node + k) = some relationship := by
  rw [List.getElem?_map, Option.map_eq_some_iff] at found
  obtain ⟨arc, found, rfl⟩ := found
  have inside := place_lt_length node.isLt (List.getElem?_eq_some_iff.1 found).1
  obtain ⟨f, sources, placedSources⟩ := sorts.sources
  obtain ⟨g, ids, placedIds⟩ := sorts.ids
  rw [inEntry, sources.getElem?_eq inside, placedSources node k arc found, Option.bind_some,
    dif_pos arc.source.isLt, ids.getElem?_eq inside, placedIds node k arc found]
  rfl

/-- The storage of flat arrays shows what leaves each node. -/
theorem visitOutgoing_ofRows (rows : Table n (List (Fin n))) (node : Fin n)
    (visitor : Visitor σ (Relationship n)) (state : σ) :
    (ofRows rows).visitOutgoing node visitor state
      = visitList visitor state (leaving rows node) :=
  visitRow_leaving rows node visitor state

theorem sorts_ofRows (rows : Table n (List (Fin n))) :
    Incoming.Sorts ⟨(ofRows rows).inOffsets, (ofRows rows).inSources, (ofRows rows).inIds⟩
      (arcs rows) := by
  have sorts : (countingSort (arcs rows) : Incoming (Array Nat)).Sorts (arcs rows) :=
    sorts_countingSort (arcs rows)
  simp only [ofRows, readArcs_eq]
  exact sorts

/-- The storage of flat arrays shows what enters each node. -/
theorem visitIncoming_ofRows (rows : Table n (List (Fin n))) (node : Fin n)
    (visitor : Visitor σ (Relationship n)) (state : σ) :
    (ofRows rows).visitIncoming node visitor state
      = visitList visitor state (arriving rows node) := by
  have sorts := sorts_ofRows rows
  unfold visitIncoming visitRow arriving
  rw [extent_firsts sorts, ← List.length_map Arc.reversed]
  exact visitPlaces_eq_visitList visitor (inEntry_eq sorts node) state

theorem outDegree_ofRows (rows : Table n (List (Fin n))) (node : Fin n) :
    (ofRows rows).outDegree node = (leaving rows node).length := by
  rw [length_leaving]
  exact congrArg Prod.snd (extent_offsets rows node)

theorem inDegree_ofRows (rows : Table n (List (Fin n))) (node : Fin n) :
    (ofRows rows).inDegree node = (arriving rows node).length := by
  rw [arriving, List.length_map]
  exact congrArg Prod.snd (extent_firsts (sorts_ofRows rows) node)

theorem relationshipCount_ofRows (rows : Table n (List (Fin n))) :
    (ofRows rows).relationshipCount = (arcs rows).length := by
  rw [length_arcs, before_size]
  simp [relationshipCount, ofRows]

end Flat

/-! ## Compressed lists -/

namespace Packed

/-- A visitor that decodes entries sees the relationships that they stand for. -/
theorem visitList_decoding {id? : Nat → Option Nat} {list : List (Relationship n)} {first : Nat}
    (ids : ∀ (k : Nat) (relationship : Relationship n),
      list[k]? = some relationship → id? (first + k) = some relationship.id)
    (visitor : Visitor σ (Relationship n)) (state : σ) :
    visitList (decoding id? visitor) state
        ((list.map fun relationship => relationship.other.val).zipIdx first)
      = visitList visitor state list := by
  induction list generalizing first state with
  | nil => rfl
  | cons relationship list ih =>
    have others : ∀ (k : Nat) (other : Relationship n),
        list[k]? = some other → id? (first + 1 + k) = some other.id := by
      intro k other found
      rw [Nat.add_assoc, Nat.add_comm 1 k]
      exact ids (k + 1) other found
    have here : decoding id? visitor state (relationship.other.val, first)
        = visitor state relationship := by
      have id := ids 0 relationship rfl
      rw [Nat.add_zero] at id
      simp only [decoding, dif_pos relationship.other.isLt, id]
    rw [List.map_cons, List.zipIdx_cons, visitList, visitList, here]
    rcases visitor state relationship with ⟨state', more⟩
    cases more with
    | false => rfl
    | true => exact ih others state'

/-- The numbers that stand for the rows. -/
def rowNumbers (rows : Table n (List (Fin n))) : List (List Nat) :=
  rows.toList.map fun row => row.map Fin.val

theorem length_flatten_take_rowNumbers (rows : Table n (List (Fin n))) (node : Nat) :
    ((rowNumbers rows).take node).flatten.length = before rows node := by
  rw [rowNumbers, before, ← List.map_take, ← List.map_flatten, List.length_map]

theorem getElem_rowNumbers (rows : Table n (List (Fin n))) (node : Fin n)
    (bound : node.val < (rowNumbers rows).length) :
    (rowNumbers rows)[node.val] = rows[node].map Fin.val := by
  simp [rowNumbers, Table.getElem_toList]

/-- Rows that compressed lists can keep. -/
structure Packable (rows : Table n (List (Fin n))) : Prop where
  ascending : ∀ node : Fin n, rows[node].Pairwise (· ≤ ·)
  words : n ≤ wordValues

variable {rows : Table n (List (Fin n))}

theorem visit_rowNumbers (h : Packable rows) (node : Fin n) (visitor : Visitor σ (Relationship n))
    (state : σ) :
    (Compressed.ofLists (rowNumbers rows)).visit node (decoding some visitor) state
      = visitList visitor state (leaving rows node) := by
  have bound : node.val < (rowNumbers rows).length := by simp [rowNumbers]
  have others : (leaving rows node).map (fun relationship => relationship.other.val)
      = rows[node].map Fin.val := by
    refine List.ext_getElem? fun k => ?_
    rw [List.getElem?_map, getElem?_leaving, List.getElem?_map]
    cases rows[node][k]? <;> rfl
  have ids : ∀ (k : Nat) (relationship : Relationship n),
      (leaving rows node)[k]? = some relationship →
        some (before rows node + k) = some relationship.id := by
    intro k relationship found
    rw [getElem?_leaving, Option.map_eq_some_iff] at found
    obtain ⟨target, -, rfl⟩ := found
    rfl
  have row := getElem_rowNumbers rows node bound
  rw [(Compressed.holds_ofLists (rowNumbers rows)).visit_eq_visitList bound, row,
    length_flatten_take_rowNumbers, ← others, visitList_decoding ids]
  · rw [row, List.pairwise_map]
    exact h.ascending node
  · rw [row]
    intro value member
    obtain ⟨target, -, rfl⟩ := List.mem_map.1 member
    exact Nat.lt_of_lt_of_le target.isLt h.words

theorem readArcs_eq (h : Packable rows) :
    readArcs (Compressed.ofLists (rowNumbers rows)) = arcs rows := by
  unfold readArcs arcs
  congr 1
  funext node
  exact collected_eq (visit_rowNumbers h node)

/-- Arcs that are read node after node have ascending sources. -/
theorem pairwise_source_arcsFrom (rowOf : Fin n → List (Relationship n)) :
    (arcsFrom rowOf).Pairwise fun a b => a.source ≤ b.source := by
  rw [arcsFrom, List.pairwise_flatMap]
  refine ⟨fun source _ => ?_, ?_⟩
  · rw [List.pairwise_map]
    exact List.pairwise_of_forall fun _ _ => Nat.le_refl _
  · refine (List.pairwise_lt_finRange n).imp fun {a b} less x hx y hy => ?_
    obtain ⟨_, -, rfl⟩ := List.mem_map.1 hx
    obtain ⟨_, -, rfl⟩ := List.mem_map.1 hy
    exact Nat.le_of_lt less

/-- The sources of what enters each node. -/
def enteringSources (all : List (Arc n)) : List (List Nat) :=
  (List.range n).map fun node => (entering all node).map fun arc => arc.source.val

theorem parts_eq {i : Incoming (Paged Nat)} {all : List (Arc n)} (sorts : i.Sorts all) :
    parts n i.firsts i.sources = enteringSources all := by
  refine List.map_congr_left fun node member => ?_
  have bound : node < n := List.mem_range.1 member
  obtain ⟨f, sources, placed⟩ := sorts.sources
  simp only [sorts.firsts.get_eq (Nat.lt_succ_of_lt bound),
    sorts.firsts.get_eq (Nat.succ_lt_succ bound), firstPlace_add_one, Nat.add_sub_cancel_left]
  refine List.ext_getElem? fun k => ?_
  rw [List.getElem?_map, List.getElem?_map]
  rcases Nat.lt_or_ge k (entering all node).length with inside | outside
  · have found := List.getElem?_eq_getElem inside
    rw [List.getElem?_range' inside, found, Option.map_some, Option.map_some, Nat.one_mul,
      sources.get_eq (place_lt_length bound inside), placed ⟨node, bound⟩ k _ found]
  · rw [List.getElem?_eq_none outside, List.getElem?_eq_none (by simpa using outside)]
    rfl

theorem length_flatten_take_enteringSources (all : List (Arc n)) {node : Nat} (bound : node ≤ n) :
    ((enteringSources all).take node).flatten.length = firstPlace all node := by
  induction node with
  | zero => simp [firstPlace_zero]
  | succ node ih =>
    have inside : node < (enteringSources all).length := by
      rw [enteringSources, List.length_map, List.length_range]
      exact bound
    rw [List.take_succ_eq_append_getElem inside, List.flatten_append, List.length_append,
      ih (Nat.le_of_succ_le bound), firstPlace_add_one]
    simp [enteringSources]

/-- The storage of compressed lists shows what leaves each node. -/
theorem visitOutgoing_ofRows (h : Packable rows) (node : Fin n)
    (visitor : Visitor σ (Relationship n)) (state : σ) :
    (ofRows rows).visitOutgoing node visitor state
      = visitList visitor state (leaving rows node) :=
  visit_rowNumbers h node visitor state

theorem incoming_ofRows (h : Packable rows) :
    (ofRows rows).incoming = Compressed.ofLists (enteringSources (arcs rows)) ∧
      ∃ i : Incoming (Paged Nat), i.Sorts (arcs rows) ∧ (ofRows rows).inIds = i.ids := by
  have sorts : (countingSort (arcs rows) : Incoming (Paged Nat)).Sorts (arcs rows) :=
    sorts_countingSort (arcs rows)
  have read := readArcs_eq h
  unfold rowNumbers at read
  refine ⟨?_, _, sorts, ?_⟩
  · rw [← parts_eq sorts]
    simp only [ofRows, read]
  · simp only [ofRows, read]

/-- The storage of compressed lists shows what enters each node. -/
theorem visitIncoming_ofRows (h : Packable rows) (node : Fin n)
    (visitor : Visitor σ (Relationship n)) (state : σ) :
    (ofRows rows).visitIncoming node visitor state
      = visitList visitor state (arriving rows node) := by
  obtain ⟨lists, i, sorts, ids⟩ := incoming_ofRows h
  obtain ⟨g, reads, placed⟩ := sorts.ids
  have bound : node.val < (enteringSources (arcs rows)).length := by simp [enteringSources]
  have row : (enteringSources (arcs rows))[node.val]
      = (arriving rows node).map fun relationship => relationship.other.val := by
    simp [enteringSources, arriving, Arc.reversed]
  have found : ∀ (k : Nat) (relationship : Relationship n),
      (arriving rows node)[k]? = some relationship →
        i.ids.get? (firstPlace (arcs rows) node + k) = some relationship.id := by
    intro k relationship found
    rw [arriving, List.getElem?_map, Option.map_eq_some_iff] at found
    obtain ⟨arc, found, rfl⟩ := found
    have inside := place_lt_length node.isLt (List.getElem?_eq_some_iff.1 found).1
    rw [reads.get?_eq inside, placed node k arc found]
    rfl
  unfold visitIncoming
  rw [lists, ids, (Compressed.holds_ofLists _).visit_eq_visitList bound, row,
    length_flatten_take_enteringSources _ (Nat.le_of_lt node.isLt), visitList_decoding found]
  · rw [row, arriving, List.map_map, List.pairwise_map]
    exact (pairwise_source_arcsFrom (leaving rows)).filter _
  · rw [row]
    intro value member
    obtain ⟨relationship, -, rfl⟩ := List.mem_map.1 member
    exact Nat.lt_of_lt_of_le relationship.other.isLt h.words

theorem outDegree_ofRows (node : Fin n) :
    (ofRows rows).outDegree node = (leaving rows node).length := by
  have bound : node.val < (rowNumbers rows).length := by simp [rowNumbers]
  have degree := (Compressed.holds_ofLists (rowNumbers rows)).degree_eq bound
  rw [getElem_rowNumbers rows node bound, List.length_map] at degree
  rw [length_leaving, ← degree]
  rfl

theorem inDegree_ofRows (h : Packable rows) (node : Fin n) :
    (ofRows rows).inDegree node = (arriving rows node).length := by
  have bound : node.val < (enteringSources (arcs rows)).length := by simp [enteringSources]
  rw [inDegree, (incoming_ofRows h).1, (Compressed.holds_ofLists _).degree_eq bound]
  simp [enteringSources, arriving]

theorem relationshipCount_ofRows :
    (ofRows rows).relationshipCount = (arcs rows).length := by
  have count := (Compressed.holds_ofLists (rowNumbers rows)).entryCount_eq
  rw [length_arcs, ← length_flatten_take_rowNumbers, List.take_of_length_le (by simp [rowNumbers]),
    ← count]
  rfl

end Packed

end NetworkAnalysis.Adjacency
