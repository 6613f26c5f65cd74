import NetworkAnalysis.Proofs.Sorting

/-!
# Sorting sees only what the order sees

A sort that compares images of entries as it compares the entries moves them in the same way: sorting commutes with
a map. What a map changes of the entries is not seen by the order, so that none of the steps depends on it, neither
the choice of a pivot nor the way in which entries that are undecided come to stand.
-/

namespace NetworkAnalysis

variable {n : Nat} {β γ : Type}

namespace Queue

/-- The queue with every entry changed. -/
def map (f : β → γ) (q : Queue β) : Queue γ where
  front := q.front.map f
  back := q.back.map f

theorem toList_map (f : β → γ) (q : Queue β) : (q.map f).toList = q.toList.map f := by
  simp [map, toList]

theorem pop?_map (f : β → γ) (q : Queue β) :
    (q.map f).pop? = q.pop?.map fun popped => (f popped.1, popped.2.map f) := by
  rcases q with ⟨_ | ⟨entry, front⟩, back⟩
  · have reversed : (back.map f).reverse = back.reverse.map f := List.map_reverse.symm
    simp only [map, pop?, List.map_nil, reversed]
    cases back.reverse <;> rfl
  · rfl

theorem rotate_map (f : β → γ) (q : Queue β) : (q.map f).rotate = q.rotate.map f := by
  unfold rotate
  rw [pop?_map]
  rcases q.pop? with _ | ⟨entry, rest⟩ <;> rfl

end Queue

namespace Sorting

variable {before : β → β → Bool} {before' : γ → γ → Bool} {f : β → γ}

/-! ## Heap sort -/

section HeapSort

variable (same : ∀ a b, before' (f a) (f b) = before a b)

include same

theorem laterChild_map (t : Table n β) (size left : Nat) (fits : size ≤ n) (inside : left < size) :
    laterChild before' (t.map f) size left fits inside = laterChild before t size left fits inside := by
  unfold laterChild
  simp only [Table.getElem_map, same]

theorem siftDown_map (size : Nat) (fits : size ≤ n) (t : Table n β) (place : Fin n) :
    siftDown before' size fits (t.map f) place = (siftDown before size fits t place).map f := by
  fun_induction siftDown before size fits t place with
  | case1 t place inside child sinks ih =>
    have later : laterChild before' (t.map f) size (2 * place.val + 1) fits inside = child :=
      laterChild_map same t size _ fits inside
    rw [siftDown, dif_pos inside]
    dsimp only
    rw [later, Table.getElem_map, Table.getElem_map, same, if_pos sinks, ← Table.map_swap]
    exact ih
  | case2 t place inside child stays =>
    have later : laterChild before' (t.map f) size (2 * place.val + 1) fits inside = child :=
      laterChild_map same t size _ fits inside
    rw [siftDown, dif_pos inside]
    dsimp only
    rw [later, Table.getElem_map, Table.getElem_map, same, if_neg stays]
  | case3 t place leaf => rw [siftDown, dif_neg leaf]

theorem heapify_map (t : Table n β) : heapify before' (t.map f) = (heapify before t).map f := by
  unfold heapify
  induction List.finRange n with
  | nil => rfl
  | cons place rest ih => rw [List.foldr_cons, List.foldr_cons, ih, siftDown_map same]

theorem extract_map (t : Table n β) (place : Fin n) :
    extract before' (t.map f) place = (extract before t place).map f := by
  unfold extract
  dsimp only
  rw [← Table.map_swap, siftDown_map same]

theorem foldr_extract_map (places : List (Fin n)) (t : Table n β) :
    places.foldr (fun place t => extract before' t place) (t.map f)
      = (places.foldr (fun place t => extract before t place) t).map f := by
  induction places with
  | nil => rfl
  | cons place rest ih => rw [List.foldr_cons, List.foldr_cons, ih, extract_map same]

theorem heapSort_map (entries : List β) : heapSort before' (entries.map f) = (heapSort before entries).map f := by
  -- The images have their own length, so that the sort is looked at for a table of any size with these entries.
  have sorted : ∀ {m : Nat} (t : Table m γ) (length : m = entries.length),
      t.toList = entries.map f →
      ((List.finRange m).foldr (fun place t => extract before' t place) (heapify before' t)).toList
        = (heapSort before entries).map f := by
    intro m t length listed
    subst length
    have mapped : t = (Table.ofList entries).map f := by
      ext i
      have bound : i.val < t.toList.length := by simp [Table.toList]
      have here : t.toList[i.val] = t[i] := by simp [Table.toList, Table.getElem_eq]
      rw [← here]
      simp only [listed, List.getElem_map, Table.getElem_map]
      rfl
    rw [mapped, heapify_map same, foldr_extract_map same, Table.toList_map]
    rfl
  exact sorted (Table.ofList (entries.map f)) (List.length_map f) (by simp [Table.ofList, Table.toList])

end HeapSort

/-! ## Divisions -/

namespace Division

/-- The division with every entry changed. -/
def map (f : β → γ) (d : Division β) : Division γ where
  first := d.first.map f
  second := d.second.map f

variable (isFirst : β → Bool) (isFirst' : γ → Bool)

theorem deal_map (same : ∀ a, isFirst' (f a) = isFirst a) (d : Division β) (entry : β) :
    (d.map f).deal isFirst' (f entry) = (d.deal isFirst entry).map f := by
  have rotated : (d.map f).second.rotate = d.second.rotate.map f := d.second.rotate_map f
  unfold deal
  dsimp only
  rw [rotated, same]
  split <;> rfl

theorem ofList_map (same : ∀ a, isFirst' (f a) = isFirst a) (entries : List β) :
    ofList isFirst' (entries.map f) = (ofList isFirst entries).map f := by
  have dealt : ∀ (entries : List β) (d : Division β),
      (entries.map f).foldl (deal isFirst') (d.map f) = (entries.foldl (deal isFirst) d).map f := by
    intro entries
    induction entries with
    | nil => exact fun _ => rfl
    | cons entry rest ih =>
      intro d
      rw [List.map_cons, List.foldl_cons, List.foldl_cons, deal_map isFirst isFirst' same, ih]
  cases entries with
  | nil => rfl
  | cons entry rest =>
    have rest' := dealt rest {}
    show ((rest.map f).foldl (deal isFirst') {}).deal isFirst' (f entry)
      = ((rest.foldl (deal isFirst) {}).deal isFirst entry).map f
    rw [← deal_map isFirst isFirst' same, ← rest']
    rfl

theorem firstSide_map (d : Division β) : (d.map f).firstSide = d.firstSide.map f := by
  rcases d with ⟨_ | ⟨last, rest⟩, second⟩
  · rfl
  · simp [map, firstSide]

theorem secondSide_map (d : Division β) : (d.map f).secondSide = d.secondSide.map f :=
  d.second.toList_map f

end Division

/-! ## Introsort -/

variable (same : ∀ a b, before' (f a) (f b) = before a b)

include same

theorem beforeAt_map (entries : Array β) : beforeAt before' (entries.map f) = beforeAt before entries := by
  funext i j
  unfold beforeAt
  rw [Array.getElem?_map, Array.getElem?_map]
  cases entries[i]? <;> cases entries[j]? <;> first | rfl | exact same _ _

theorem pivotFirst_map (entries : List β) :
    pivotFirst before' (entries.map f) = (pivotFirst before entries).map f := by
  have array : (entries.map f).toArray = entries.toArray.map f := by simp
  unfold pivotFirst
  dsimp only
  rw [array, beforeAt_map same, Array.size_map, Array.swapIfInBounds_def, Array.swapIfInBounds_def]
  simp only [Array.size_map]
  split
  · split
    · rw [← Array.toList_map]
      congr 1
      apply Array.ext
      · simp
      · intro k _ _
        simp only [Array.getElem_map, Array.getElem_swap]
        split
        · rfl
        · split <;> rfl
    · exact Array.toList_map
  · exact Array.toList_map

/-- A map that keeps the order of entries can be taken after sorting them instead of before. -/
theorem sortWithin_map (divisions : Nat) (floor : Option β) (entries : List β) :
    sortWithin before' divisions (floor.map f) (entries.map f) = (sortWithin before divisions floor entries).map f := by
  have merged : ∀ entries : List β, (entries.map f).mergeSort (fun a b => !before' b a)
      = (entries.mergeSort fun a b => !before b a).map f := by
    intro entries
    refine (List.map_mergeSort fun a _ b _ => ?_).symm
    rw [same]
  induction divisions generalizing floor entries with
  | zero =>
    unfold sortWithin
    rw [List.length_map]
    split
    · exact merged entries
    · exact heapSort_map same entries
  | succ divisions ih =>
    unfold sortWithin
    rw [List.length_map]
    split
    · exact merged entries
    · rw [pivotFirst_map same]
      cases pivotFirst before entries with
      | nil => rfl
      | cons pivot rest =>
        have least : (floor.map f).any (fun least => !before' least (f pivot))
            = floor.any fun least => !before least pivot := by
          cases floor with
          | none => rfl
          | some least => exact congrArg (!·) (same least pivot)
        have behind := Division.ofList_map (fun entry => !before pivot entry) (fun entry => !before' (f pivot) entry)
          (fun entry => congrArg (!·) (same pivot entry)) rest
        rw [List.map_cons]
        dsimp only
        rw [least]
        split
        · rw [behind, Division.firstSide_map, Division.secondSide_map, List.map_append,
            List.map_cons]
          exact congrArg (fun sorted => _ ++ f pivot :: sorted) (ih none _)
        · have first := ih floor (Division.ofList (fun entry => before entry pivot) rest).firstSide
          have second := ih (some pivot) (Division.ofList (fun entry => before entry pivot) rest).secondSide
          rw [Division.ofList_map _ _ fun entry => same entry pivot, Division.firstSide_map, Division.secondSide_map,
            List.map_append, List.map_cons, first]
          exact congrArg (fun sorted => _ ++ f pivot :: sorted) second

/-- Sorting the images of entries is sorting the entries. -/
theorem introsort_map (entries : List β) :
    introsort before' (entries.map f) = (introsort before entries).map f := by
  have pairs : (entries.map f).zip (entries.map f).tail = (entries.zip entries.tail).map (Prod.map f f) := by
    rw [← List.map_tail, List.zip_map]
  have ascending : isAscending before' (entries.map f) = isAscending before entries := by
    unfold isAscending
    rw [pairs, List.all_map]
    exact congrArg (List.all _) (funext fun pair => congrArg (!·) (same pair.2 pair.1))
  have descending : isDescending before' (entries.map f) = isDescending before entries := by
    unfold isDescending
    rw [pairs, List.all_map]
    exact congrArg (List.all _) (funext fun pair => same pair.2 pair.1)
  unfold introsort
  rw [ascending, descending, List.length_map]
  split
  · rfl
  · split
    · exact List.map_reverse.symm
    · exact sortWithin_map same _ none entries

end Sorting

end NetworkAnalysis
