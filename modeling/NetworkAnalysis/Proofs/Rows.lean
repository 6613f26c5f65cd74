import NetworkAnalysis.Proofs.CountingSort
import NetworkAnalysis.Proofs.Visitor

/-!
# Rows and their arcs

What the rows of targets say about a graph, whatever storage it is kept in: the relationships that leave a
node are its row, numbered on from the rows before it, and those that enter a node are the arcs of all rows
with this target, in the order of their numbers. Both storages are proved to show these lists.
-/

namespace NetworkAnalysis

namespace Table

variable {n : Nat} {β : Type}

@[simp]
theorem length_toList (t : Table n β) : t.toList.length = n := by
  simp [toList]

theorem getElem_toList (t : Table n β) {i : Nat} (h : i < t.toList.length) :
    t.toList[i] = t[(⟨i, by simpa using h⟩ : Fin n)] := by
  simp [toList, getElem_eq]

theorem exists_of_mem_toList {t : Table n β} {x : β} (member : x ∈ t.toList) : ∃ i : Fin n, t[i] = x := by
  obtain ⟨i, bound, here⟩ := List.getElem_of_mem member
  rw [getElem_toList] at here
  exact ⟨_, here⟩

end Table

/-- An arc as it is seen from its target. -/
def Arc.reversed {n : Nat} (arc : Arc n) : Relationship n :=
  ⟨arc.source, arc.id⟩

namespace Adjacency

variable {n : Nat} {β : Type}

/-- The number of entries in the rows before a node. -/
def before (rows : Table n (List β)) (node : Nat) : Nat :=
  (rows.toList.take node).flatten.length

theorem before_zero (rows : Table n (List β)) : before rows 0 = 0 := by
  simp [before]

theorem before_add_one (rows : Table n (List β)) (node : Fin n) :
    before rows (node + 1) = before rows node + rows[node].length := by
  have bound : node.val < rows.toList.length := by simp
  rw [before, List.take_succ_eq_append_getElem bound, List.flatten_append, List.length_append,
    Table.getElem_toList]
  simp [before]

theorem before_size (rows : Table n (List β)) : before rows n = rows.toList.flatten.length := by
  rw [before, List.take_of_length_le (by simp)]

theorem before_map {γ : Type} (f : β → γ) (rows : Table n (List β)) (node : Nat) :
    before (rows.map (List.map f)) node = before rows node := by
  have lists : (rows.map (List.map f)).toList = rows.toList.map (List.map f) := by
    rw [Table.toList, Table.toList, Table.map, Vector.toList_map]
  rw [before, before, lists, ← List.map_take, ← List.map_flatten, List.length_map]

/-- An entry of a row, found in the list of all entries. -/
theorem getElem?_flatten_before (rows : Table n (List β)) (node : Fin n) {k : Nat}
    (inside : k < rows[node].length) :
    rows.toList.flatten[before rows node + k]? = some rows[node][k] := by
  have cut : rows.toList.flatten = (rows.toList.take node).flatten
      ++ (rows[node] ++ (rows.toList.drop (node + 1)).flatten) := by
    have bound : node.val < rows.toList.length := by simp
    have parts : rows.toList = rows.toList.take node ++ (rows[node] :: rows.toList.drop (node + 1)) := by
      rw [← Table.getElem_toList rows bound, ← List.drop_eq_getElem_cons bound, List.take_append_drop]
    calc rows.toList.flatten
        = (rows.toList.take node ++ (rows[node] :: rows.toList.drop (node + 1))).flatten := by
          rw [← parts]
      _ = _ := by rw [List.flatten_append, List.flatten_cons]
  rw [cut, before, List.getElem?_append_right (Nat.le_add_right _ _), Nat.add_sub_cancel_left,
    List.getElem?_append_left inside, List.getElem?_eq_getElem inside]

/-- The relationships that leave a node. -/
def leaving (rows : Table n (List (Fin n))) (node : Fin n) : List (Relationship n) :=
  (rows[node].zipIdx (before rows node)).map fun (target, id) => ⟨target, id⟩

/-- All relationships with both ends. -/
def arcs (rows : Table n (List (Fin n))) : List (Arc n) :=
  arcsFrom (leaving rows)

/-- The relationships that enter a node. -/
def arriving (rows : Table n (List (Fin n))) (node : Fin n) : List (Relationship n) :=
  (entering (arcs rows) node).map Arc.reversed

@[simp]
theorem length_leaving (rows : Table n (List (Fin n))) (node : Fin n) :
    (leaving rows node).length = rows[node].length := by
  simp [leaving]

theorem getElem?_leaving (rows : Table n (List (Fin n))) (node : Fin n) (k : Nat) :
    (leaving rows node)[k]? = rows[node][k]?.map fun target => ⟨target, before rows node + k⟩ := by
  rw [leaving, List.getElem?_map, List.getElem?_zipIdx]
  cases rows[node][k]? <;> rfl

/-- There are as many arcs as there are entries. -/
theorem length_arcs (rows : Table n (List (Fin n))) : (arcs rows).length = before rows n := by
  have counted : ∀ k ≤ n, (((List.finRange n).take k).flatMap fun source =>
      (leaving rows source).map (Relationship.arcFrom source)).length = before rows k := by
    intro k
    induction k with
    | zero => intro _; simp [before_zero]
    | succ k ih =>
      intro bound
      have inside : k < (List.finRange n).length := by
        rw [List.length_finRange]
        exact bound
      rw [List.take_succ_eq_append_getElem inside, List.flatMap_append, List.length_append,
        ih (Nat.le_of_succ_le bound), List.getElem_finRange]
      simp [before_add_one rows ⟨k, bound⟩]
  have all := counted n (Nat.le_refl n)
  rwa [List.take_of_length_le (by simp)] at all

end Adjacency

end NetworkAnalysis
