/-!
# Tables

A `Table n β` holds one value for each of the numbers below `n`: for each node of a graph, or for each of
its communities. It is read and changed at indices of type `Fin n`, so that no look-up can miss, and the
laws below say what a changed table holds.
-/

namespace NetworkAnalysis

/-- A value for each of the numbers below `n`. -/
structure Table (n : Nat) (β : Type) where
  /-- The table with the entries of a vector. -/
  ofVector ::
  /-- The values in order. -/
  toVector : Vector β n
deriving DecidableEq, Repr

namespace Table

variable {n : Nat} {β γ : Type}

instance : GetElem (Table n β) (Fin n) β (fun _ _ => True) where
  getElem t i _ := t.toVector.get i

/-- The table of the values of a function. -/
@[inline]
def ofFn (f : Fin n → β) : Table n β :=
  ⟨Vector.ofFn f⟩

/-- The table with the same value everywhere. -/
@[inline]
def replicate (x : β) : Table n β :=
  ⟨Vector.replicate n x⟩

/-- The table with another value at one index. -/
@[inline]
def set (t : Table n β) (i : Fin n) (x : β) : Table n β :=
  ⟨t.toVector.set i.val x i.isLt⟩

/-- The table with the values at two indices exchanged. -/
@[inline]
def swap (t : Table n β) (i j : Fin n) : Table n β :=
  ⟨t.toVector.swap i.val j.val i.isLt j.isLt⟩

/-- The table of the values of a list. -/
def ofList (values : List β) : Table values.length β :=
  ⟨⟨values.toArray, by simp⟩⟩

/-- The table with every value changed. -/
@[inline]
def map (f : β → γ) (t : Table n β) : Table n γ :=
  ⟨t.toVector.map f⟩

/-- The values in order. -/
def toArray (t : Table n β) : Array β :=
  t.toVector.toArray

/-- The values in order. -/
def toList (t : Table n β) : List β :=
  t.toVector.toList

/-- The value at a number, if it is an index. -/
def get? (t : Table n β) (i : Nat) : Option β :=
  if h : i < n then some t[(⟨i, h⟩ : Fin n)] else none

/-- How often a value occurs. -/
def count [BEq β] (x : β) (t : Table n β) : Nat :=
  t.toVector.count x

theorem getElem_eq (t : Table n β) (i : Fin n) : t[i] = t.toVector[i.val] := rfl

@[ext]
theorem ext {s t : Table n β} (h : ∀ i : Fin n, s[i] = t[i]) : s = t := by
  cases s
  cases t
  congr
  exact Vector.ext fun i bound => h ⟨i, bound⟩

@[simp]
theorem getElem_ofFn (f : Fin n → β) (i : Fin n) : (ofFn f)[i] = f i := by
  simp [getElem_eq, ofFn]

@[simp]
theorem getElem_replicate (x : β) (i : Fin n) : (replicate x : Table n β)[i] = x := by
  simp [getElem_eq, replicate]

@[simp]
theorem getElem_map (f : β → γ) (t : Table n β) (i : Fin n) : (t.map f)[i] = f t[i] := by
  simp [getElem_eq, map]

theorem getElem_set (t : Table n β) (i j : Fin n) (x : β) :
    (t.set i x)[j] = if i = j then x else t[j] := by
  simp [getElem_eq, set, Vector.getElem_set, Fin.ext_iff]

@[simp]
theorem getElem_set_self (t : Table n β) (i : Fin n) (x : β) : (t.set i x)[i] = x := by
  simp [getElem_set]

theorem getElem_set_of_ne (t : Table n β) {i j : Fin n} (x : β) (h : i ≠ j) :
    (t.set i x)[j] = t[j] := by
  simp [getElem_set, h]

theorem getElem_swap (t : Table n β) (i j k : Fin n) :
    (t.swap i j)[k] = if k = i then t[j] else if k = j then t[i] else t[k] := by
  simp only [getElem_eq, swap, Vector.getElem_swap, Fin.ext_iff]

/-- A table that was reset at some indices and had the value of the reset at all others has it everywhere. -/
theorem eq_replicate {p : Fin n → Prop} [DecidablePred p] {old new : Table n β} {x : β}
    (reset : ∀ i : Fin n, new[i] = if p i then x else old[i]) (others : ∀ i : Fin n, ¬ p i → old[i] = x) :
    new = .replicate x := by
  ext i
  rw [reset, getElem_replicate]
  split
  · rfl
  · next other => exact others i other

theorem map_set (f : β → γ) (t : Table n β) (i : Fin n) (x : β) :
    (t.set i x).map f = (t.map f).set i (f x) := by
  ext j
  rw [getElem_map, getElem_set, getElem_set, getElem_map]
  split <;> rfl

theorem map_swap (f : β → γ) (t : Table n β) (i j : Fin n) : (t.swap i j).map f = (t.map f).swap i j := by
  ext k
  rw [getElem_map, getElem_swap, getElem_swap, getElem_map, getElem_map, getElem_map]
  split
  · rfl
  · split <;> rfl

theorem toList_map (f : β → γ) (t : Table n β) : (t.map f).toList = t.toList.map f :=
  Vector.toList_map

theorem toList_ofFn (f : Fin n → β) : (ofFn f).toList = (List.finRange n).map f := by
  refine List.ext_getElem ?_ fun i _ _ => ?_
  · simp [toList, ofFn]
  · simp [toList, ofFn]

theorem getElem?_toArray (t : Table n β) (i : Fin n) : t.toArray[i.val]? = some t[i] := by
  rw [toArray, Array.getElem?_eq_getElem (by simp)]
  rfl

theorem getElem_mem_toList (t : Table n β) (i : Fin n) : t[i] ∈ t.toList := by
  rw [getElem_eq, toList, Vector.mem_toList_iff]
  exact Vector.getElem_mem i.isLt

theorem count_replicate_self [BEq β] [LawfulBEq β] (x : β) : (replicate x : Table n β).count x = n :=
  Vector.count_replicate_self

/-- Where another value replaces `y`, there is one `y` less. -/
theorem count_set_add_one [BEq β] [LawfulBEq β] {t : Table n β} {i : Fin n} {x y : β} (h : t[i] = y)
    (ne : x ≠ y) : (t.set i x).count y + 1 = t.count y := by
  rw [getElem_eq] at h
  have member : y ∈ t.toVector := h ▸ Vector.getElem_mem i.isLt
  have positive := Vector.count_pos_iff.2 member
  have counted := @Vector.count_set _ _ _ _ x y t.toVector i.isLt
  simp only [h, beq_self_eq_true, if_true, beq_iff_eq, ne, if_false, Nat.add_zero] at counted
  simp only [count, set, counted]
  omega

end Table

end NetworkAnalysis
