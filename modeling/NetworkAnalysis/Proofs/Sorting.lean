import NetworkAnalysis.Sorting.Introsort

/-!
# Sorting keeps the entries

Whatever the order is, sorting moves entries and does nothing else to them: a sift and an extraction swap
entries, a division deals all of them out, and the pivot is one of them.
-/

namespace NetworkAnalysis.Sorting

variable {n : Nat} {β : Type} (before : β → β → Bool)

/-! ## Heap sort -/

theorem perm_swap (t : Table n β) (i j : Fin n) : (t.swap i j).toList.Perm t.toList :=
  (Vector.swap_perm i.isLt j.isLt).toList

theorem perm_siftDown (size : Nat) (fits : size ≤ n) (t : Table n β) (place : Fin n) :
    (siftDown before size fits t place).toList.Perm t.toList := by
  fun_induction siftDown before size fits t place with
  | case1 t place inside child sinks ih =>
    exact ih.trans (perm_swap t place child)
  | case2 t place inside child stays => exact .refl _
  | case3 t place leaf => exact .refl _

/-- A step that only moves entries may be taken at any places in turn. -/
theorem perm_foldr {γ : Type} {step : γ → Table n β → Table n β}
    (moves : ∀ place t, (step place t).toList.Perm t.toList) (places : List γ) (t : Table n β) :
    (places.foldr step t).toList.Perm t.toList := by
  induction places with
  | nil => exact .refl _
  | cons place rest ih => exact (moves place _).trans ih

theorem perm_extract (t : Table n β) (place : Fin n) :
    (extract before t place).toList.Perm t.toList := by
  unfold extract
  exact (perm_siftDown before _ _ _ _).trans (perm_swap t _ _)

theorem perm_heapSort (entries : List β) : (heapSort before entries).Perm entries := by
  have listed : (Table.ofList entries).toList = entries := by
    simp [Table.ofList, Table.toList]
  have heaped : (heapify before (Table.ofList entries)).toList.Perm entries := by
    have moved := perm_foldr (fun place t => perm_siftDown before _ (Nat.le_refl _) t place)
      (List.finRange entries.length) (Table.ofList entries)
    rw [listed] at moved
    exact moved
  unfold heapSort
  exact (perm_foldr (fun place t => perm_extract before t place) _ _).trans heaped

/-! ## Divisions -/

/-- All entries of both sides. -/
def Division.entries (d : Division β) : List β :=
  d.first ++ d.second.toList

theorem Division.perm_deal (isFirst : β → Bool) (d : Division β) (entry : β) :
    (d.deal isFirst entry).entries.Perm (entry :: d.entries) := by
  have rotated : (d.first ++ d.second.rotate.toList).Perm d.entries :=
    (Queue.perm_rotate d.second).append_left d.first
  unfold Division.deal Division.entries
  dsimp only
  split
  · exact rotated.cons entry
  · rw [Queue.toList_pushFront]
    exact List.perm_middle.trans (rotated.cons entry)

theorem Division.perm_foldl_deal (isFirst : β → Bool) (entries : List β) (d : Division β) :
    (entries.foldl (deal isFirst) d).entries.Perm (entries ++ d.entries) := by
  induction entries generalizing d with
  | nil => exact .refl _
  | cons entry rest ih =>
    have dealt := (Division.perm_deal isFirst d entry).append_left rest
    exact (ih _).trans (dealt.trans List.perm_middle)

theorem Division.perm_ofList (isFirst : β → Bool) (entries : List β) :
    (ofList isFirst entries).entries.Perm entries := by
  cases entries with
  | nil => exact .refl _
  | cons entry rest =>
    have dealt := Division.perm_foldl_deal isFirst rest {}
    have empty : ({} : Division β).entries = [] := rfl
    rw [empty, List.append_nil] at dealt
    exact (Division.perm_deal isFirst _ entry).trans (dealt.cons entry)

theorem Division.perm_firstSide (d : Division β) : d.firstSide.Perm d.first := by
  unfold firstSide
  split
  · next alone =>
    rw [alone]
  · next last rest ends =>
    rw [ends]
    exact (List.reverse_perm rest).cons last

/-- Both sides of a division with the pivot between them are the entries divided. -/
theorem perm_sides (isFirst : β → Bool) (pivot : β) (rest : List β) {first second : List β}
    (left : first.Perm (Division.ofList isFirst rest).firstSide)
    (right : second.Perm (Division.ofList isFirst rest).secondSide) :
    (first ++ pivot :: second).Perm (pivot :: rest) := by
  refine List.perm_middle.trans (List.Perm.cons pivot ?_)
  have sides := (left.trans (Division.perm_firstSide _)).append right
  exact sides.trans (Division.perm_ofList isFirst rest)

theorem perm_pivotFirst (entries : List β) : (pivotFirst before entries).Perm entries := by
  unfold pivotFirst
  dsimp only
  rw [Array.swapIfInBounds_def]
  split
  · split
    · exact (Array.swap_perm _ _).toList
    · exact .refl _
  · exact .refl _

/-! ## Sorting -/

theorem perm_sortWithin (divisions : Nat) (floor : Option β) (entries : List β) :
    (sortWithin before divisions floor entries).Perm entries := by
  fun_induction sortWithin before divisions floor entries with
  | case1 floor entries short => exact List.mergeSort_perm _ _
  | case2 floor entries long => exact perm_heapSort before entries
  | case3 divisions floor entries short => exact List.mergeSort_perm _ _
  | case4 divisions floor entries long divided =>
    have pivots := perm_pivotFirst before entries
    rwa [divided] at pivots
  | case5 divisions floor entries long pivot rest divided least d ih =>
    have pivots := perm_pivotFirst before entries
    rw [divided] at pivots
    exact (perm_sides _ pivot rest (.refl _) ih).trans pivots
  | case6 divisions floor entries long pivot rest divided more d first second =>
    have pivots := perm_pivotFirst before entries
    rw [divided] at pivots
    exact (perm_sides _ pivot rest first second).trans pivots

/-- Sorting keeps the entries of a list. -/
theorem perm_introsort (entries : List β) : (introsort before entries).Perm entries := by
  unfold introsort
  split
  · exact .refl _
  · split
    · exact List.reverse_perm entries
    · exact perm_sortWithin before _ none entries

end NetworkAnalysis.Sorting
