import NetworkAnalysis.Proofs.Sorting
import NetworkAnalysis.Proofs.SortingHeap

/-!
# Sorting puts entries in order

The sides of a division are in order with the pivot. A pivot that does not come after the floor is in order with all
entries from both ends, so that those of its first side are undecided and may stand as they were dealt out. So, however
a list is divided, and whether its parts are merged, put on a heap or left as they are, it comes out in order.
-/

namespace NetworkAnalysis.Sorting

variable {β : Type} {before : β → β → Bool}

/-! ## Divisions -/

namespace Division

/-- Each entry is on the side that it is for. -/
structure Dealt (isFirst : β → Bool) (d : Division β) : Prop where
  first : ∀ entry ∈ d.first, isFirst entry = true
  second : ∀ entry ∈ d.second.toList, isFirst entry = false

theorem Dealt.deal {isFirst : β → Bool} {d : Division β} (h : d.Dealt isFirst) (entry : β) :
    (d.deal isFirst entry).Dealt isFirst := by
  have rotated : ∀ entry ∈ d.second.rotate.toList, isFirst entry = false :=
    fun entry member => h.second entry ((Queue.perm_rotate d.second).mem_iff.1 member)
  unfold Division.deal
  dsimp only
  split
  · next here => exact ⟨List.forall_mem_cons.2 ⟨here, h.first⟩, rotated⟩
  · next other =>
    refine ⟨h.first, ?_⟩
    rw [Queue.toList_pushFront]
    exact List.forall_mem_cons.2 ⟨Bool.eq_false_iff.2 other, rotated⟩

theorem dealt_ofList (isFirst : β → Bool) (entries : List β) : (ofList isFirst entries).Dealt isFirst := by
  have empty : ({} : Division β).Dealt isFirst := ⟨by simp, by simp [Queue.toList]⟩
  cases entries with
  | nil => exact empty
  | cons entry rest =>
    have others := List.foldlRecOn (motive := fun d : Division β => d.Dealt isFirst) rest (Division.deal isFirst)
      empty fun d dealt entry _ => dealt.deal entry
    exact others.deal entry

variable {isFirst : β → Bool} {entries : List β} {entry : β}

theorem of_mem_firstSide (member : entry ∈ (ofList isFirst entries).firstSide) :
    isFirst entry = true ∧ entry ∈ entries := by
  have dealt := (perm_firstSide _).mem_iff.1 member
  exact ⟨(dealt_ofList isFirst entries).first entry dealt,
    (perm_ofList isFirst entries).mem_iff.1 (List.mem_append_left _ dealt)⟩

theorem of_mem_secondSide (member : entry ∈ (ofList isFirst entries).secondSide) :
    isFirst entry = false ∧ entry ∈ entries :=
  ⟨(dealt_ofList isFirst entries).second entry member,
    (perm_ofList isFirst entries).mem_iff.1 (List.mem_append_right _ member)⟩

end Division

/-! ## Sorting -/

theorem mem_of_pivotFirst {entries rest : List β} {pivot entry : β}
    (divided : pivotFirst before entries = pivot :: rest) (member : entry ∈ rest) : entry ∈ entries := by
  have pivots := perm_pivotFirst before entries
  rw [divided] at pivots
  exact pivots.mem_iff.1 (List.mem_cons_of_mem _ member)

variable (order : WeakOrder before)

include order

theorem pairwise_mergeSort (entries : List β) :
    (entries.mergeSort fun a b => !before b a).Pairwise (InOrder before) := by
  refine (List.pairwise_mergeSort (fun a b c => ?_) (fun a b => ?_) entries).imp inOrder_iff.2
  · simp only [← inOrder_iff]
    exact order.trans
  · simp only [Bool.or_eq_true, ← inOrder_iff]
    exact order.total a b

theorem pairwise_pivot {pivot : β} {first second : List β} (left : first.Pairwise (InOrder before))
    (right : second.Pairwise (InOrder before)) (below : ∀ entry ∈ first, InOrder before entry pivot)
    (above : ∀ entry ∈ second, InOrder before pivot entry) :
    (first ++ pivot :: second).Pairwise (InOrder before) := by
  refine List.pairwise_append.2 ⟨left, List.pairwise_cons.2 ⟨above, right⟩, fun a inFirst b inSecond => ?_⟩
  rcases List.mem_cons.1 inSecond with rfl | inSecond
  · exact below a inFirst
  · exact order.trans (below a inFirst) (above b inSecond)

/-- Entries that are all in order with the floor are sorted. -/
theorem pairwise_sortWithin {divisions : Nat} {floor : Option β} {entries : List β}
    (least : ∀ least ∈ floor, ∀ entry ∈ entries, InOrder before least entry) :
    (sortWithin before divisions floor entries).Pairwise (InOrder before) := by
  fun_induction sortWithin before divisions floor entries with
  | case1 floor entries short => exact pairwise_mergeSort order entries
  | case2 floor entries long => exact pairwise_heapSort order entries
  | case3 divisions floor entries short => exact pairwise_mergeSort order entries
  | case4 divisions floor entries long divided => exact .nil
  | case5 divisions floor entries long pivot rest divided undecided d ih =>
    obtain ⟨floor, rfl, reached⟩ : ∃ least, floor = some least ∧ InOrder before pivot least := by
      cases floor with
      | none => cases undecided
      | some floor => exact ⟨floor, rfl, inOrder_iff.2 undecided⟩
    have first : ∀ entry ∈ d.firstSide, InOrder before entry pivot ∧ InOrder before pivot entry := by
      intro entry member
      obtain ⟨here, inside⟩ := Division.of_mem_firstSide member
      have above := least floor rfl entry (mem_of_pivotFirst divided inside)
      exact ⟨inOrder_iff.2 here, order.trans reached above⟩
    have second : ∀ entry ∈ d.secondSide, InOrder before pivot entry := by
      intro entry member
      exact order.asymm (by simpa using (Division.of_mem_secondSide member).1)
    refine pairwise_pivot order ?_ (ih fun _ unset => by cases unset) (fun entry member => (first entry member).1) ?_
    · -- the first side is not sorted, because all of its entries are undecided
      refine List.pairwise_of_forall_mem_list fun a inside b inside' => ?_
      exact order.trans (first a inside).1 (first b inside').2
    · intro entry member
      exact second entry ((perm_sortWithin before _ _ _).mem_iff.1 member)
  | case6 divisions floor entries long pivot rest divided more d ih ih' =>
    have first : ∀ entry ∈ d.firstSide, InOrder before entry pivot ∧ entry ∈ entries := by
      intro entry member
      obtain ⟨here, inside⟩ := Division.of_mem_firstSide member
      exact ⟨order.asymm here, mem_of_pivotFirst divided inside⟩
    have second : ∀ entry ∈ d.secondSide, InOrder before pivot entry :=
      fun entry member => (Division.of_mem_secondSide member).1
    refine pairwise_pivot order (ih fun floor known entry member => least floor known entry (first entry member).2)
      (ih' fun floor known => by cases known; exact second) ?_ ?_
    · intro entry member
      exact (first entry ((perm_sortWithin before _ _ _).mem_iff.1 member)).1
    · intro entry member
      exact second entry ((perm_sortWithin before _ _ _).mem_iff.1 member)

omit order in
/-- A relation that holds from each entry to the next one holds from each entry to all later ones. -/
theorem pairwise_of_zip_tail (R : β → β → Prop) (trans : ∀ a b c, R a b → R b c → R a c) {entries : List β}
    (steps : ∀ pair ∈ entries.zip entries.tail, R pair.1 pair.2) : entries.Pairwise R := by
  induction entries with
  | nil => exact .nil
  | cons entry rest ih =>
    cases rest with
    | nil => exact List.pairwise_singleton R entry
    | cons next rest =>
      obtain ⟨first, others⟩ := List.forall_mem_cons.1 steps
      have sorted := ih others
      refine List.pairwise_cons.2 ⟨fun later member => ?_, sorted⟩
      rcases List.mem_cons.1 member with rfl | member
      · exact first
      · exact trans _ _ _ first ((List.pairwise_cons.1 sorted).1 later member)

/-- Sorting puts the entries of a list in order. -/
theorem pairwise_introsort (entries : List β) : (introsort before entries).Pairwise (InOrder before) := by
  unfold introsort isAscending isDescending
  split
  · next ascending =>
    refine pairwise_of_zip_tail (InOrder before) (fun _ _ _ => order.trans) fun pair member => ?_
    exact inOrder_iff.2 (List.all_eq_true.1 ascending pair member)
  · split
    · next descending =>
      refine List.pairwise_reverse.2 (pairwise_of_zip_tail (fun a b => InOrder before b a) ?_ fun pair member => ?_)
      · exact fun _ _ _ first second => order.trans second first
      · exact order.asymm (List.all_eq_true.1 descending pair member)
    · exact pairwise_sortWithin order fun _ unset => by cases unset

end NetworkAnalysis.Sorting
