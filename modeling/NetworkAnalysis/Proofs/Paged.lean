import NetworkAnalysis.Paged

/-!
# Paged arrays hold lists

The view of a paged array is the list of its entries. A well-formed array has pages of the sizes that its
length asks for; reading it at a place is then reading its list, and a builder that was filled from the
empty one builds the well-formed array of all values that were pushed. The view of a cursor is the rest of
that list (`Faces`), and a step to the next entry takes its head off, also from one page to the next.
-/

namespace NetworkAnalysis

theorem pageSize_pos : 0 < pageSize := by decide

namespace Paged

variable {β : Type}

/-! ## Sizes of pages -/

theorem pagesFor_zero : pagesFor 0 = 0 := by decide

theorem pagesFor_of_pos {size : Nat} (h : 0 < size) :
    pagesFor size = pagesFor (size - pageSize) + 1 := by
  simp only [pagesFor, pageSize]
  omega

theorem pageSizes_zero : pageSizes 0 = [] := by
  simp [pageSizes, pagesFor_zero]

/-- The first page takes as much as fits on it, the others take the rest. -/
theorem pageSizes_of_pos {size : Nat} (h : 0 < size) :
    pageSizes size = min pageSize size :: pageSizes (size - pageSize) := by
  unfold pageSizes
  rw [pagesFor_of_pos h, List.range_succ_eq_map, List.map_cons, List.map_map, Nat.zero_mul,
    Nat.sub_zero]
  have others : ∀ page : Nat, size - (page + 1) * pageSize = size - pageSize - page * pageSize := by
    intro page
    rw [Nat.succ_mul, Nat.sub_sub, Nat.add_comm]
  simp only [Function.comp_def, Nat.succ_eq_add_one, others]

/-- All pages before the one that holds entry `size` are full. -/
theorem pageSizes_add_one (size : Nat) :
    pageSizes (size + 1) =
      List.replicate (size / pageSize) pageSize ++ [size % pageSize + 1] := by
  induction size using Nat.strongRecOn with
  | _ size ih =>
    rw [pageSizes_of_pos (Nat.succ_pos size)]
    by_cases small : size < pageSize
    · have rest : size + 1 - pageSize = 0 := by omega
      rw [rest, pageSizes_zero, Nat.div_eq_of_lt small, Nat.mod_eq_of_lt small, Nat.min_eq_right small,
        List.replicate_zero, List.nil_append]
    · have full : pageSize ≤ size := Nat.le_of_not_lt small
      have rest : size + 1 - pageSize = (size - pageSize) + 1 := by omega
      rw [rest, ih (size - pageSize) (Nat.sub_lt_of_pos_le pageSize_pos full),
        Nat.min_eq_left (by omega), Nat.div_eq_sub_div pageSize_pos full, Nat.mod_eq_sub_mod full,
        List.replicate_succ, List.cons_append]

/-! ## Reading -/

/-- The pages have the sizes that the length asks for. -/
def WellFormed (a : Paged β) : Prop :=
  a.pages.toList.map Array.size = pageSizes a.size

/-- Finding an entry by its page and its place there is finding it in the list of all entries. -/
theorem getElem?_flatMap_pages {pages : List (Array β)} {size : Nat}
    (sizes : pages.map Array.size = pageSizes size) (i : Nat) :
    (pages[pageIndex i]?.bind fun page => page[indexInPage i]?)
      = (pages.flatMap Array.toList)[i]? := by
  unfold pageIndex indexInPage
  induction pages generalizing size i with
  | nil => simp
  | cons page rest ih =>
    have positive : 0 < size := by
      rcases Nat.eq_zero_or_pos size with rfl | h
      · simp [pageSizes_zero] at sizes
      · exact h
    rw [pageSizes_of_pos positive, List.map_cons, List.cons.injEq] at sizes
    obtain ⟨first, others⟩ := sizes
    rw [List.flatMap_cons]
    by_cases here : i < pageSize
    · rw [Nat.div_eq_of_lt here, Nat.mod_eq_of_lt here]
      by_cases inside : i < page.size
      · rw [List.getElem?_append_left (by simpa using inside)]
        simp
      · -- the page is not full, so it is the last one
        have last : size - pageSize = 0 := by omega
        rw [last, pageSizes_zero, List.map_eq_nil_iff] at others
        rw [others]
        simp
    · have full : pageSize ≤ i := Nat.le_of_not_lt here
      rw [Nat.div_eq_sub_div pageSize_pos full, Nat.mod_eq_sub_mod full, List.getElem?_cons_succ]
      by_cases more : pageSize ≤ size
      · have pageFull : page.size = pageSize := by omega
        rw [ih others, List.getElem?_append_right (by simpa [pageFull] using full)]
        simp [pageFull]
      · have last : size - pageSize = 0 := by omega
        rw [last, pageSizes_zero, List.map_eq_nil_iff] at others
        rw [others]
        have beyond : page.size ≤ i := by omega
        simp [beyond]

theorem get?_eq_getElem?_toList {a : Paged β} (h : a.WellFormed) (i : Nat) :
    a.get? i = a.toList[i]? := by
  unfold get? toList
  rw [← getElem?_flatMap_pages h i, Array.getElem?_toList]

theorem length_toList {a : Paged β} (h : a.WellFormed) : a.toList.length = a.size := by
  have total : ∀ (pages : List (Array β)) (size : Nat), pages.map Array.size = pageSizes size →
      (pages.flatMap Array.toList).length = size := by
    intro pages
    induction pages with
    | nil =>
      intro size sizes
      rcases Nat.eq_zero_or_pos size with rfl | positive
      · rfl
      · rw [pageSizes_of_pos positive] at sizes
        simp at sizes
    | cons page rest ih =>
      intro size sizes
      rcases Nat.eq_zero_or_pos size with rfl | positive
      · simp [pageSizes_zero] at sizes
      · rw [pageSizes_of_pos positive, List.map_cons, List.cons.injEq] at sizes
        rw [List.flatMap_cons, List.length_append, ih _ sizes.2, Array.length_toList, sizes.1]
        omega
  exact total _ _ h

/-! ## Cursors -/

/-- The entries from a cursor on. -/
def ahead (a : Paged β) (c : Cursor) : List β :=
  ((a.pages.toList.drop c.page).flatMap Array.toList).drop c.place

/-- The cursor stands on a page, and from there on the array holds the entries of a list. -/
structure Faces (a : Paged β) (c : Cursor) (list : List β) : Prop where
  place : c.place < pageSize
  ahead : a.ahead c = list

theorem drop_flatMap_pages {pages : List (Array β)} {size : Nat} (sizes : pages.map Array.size = pageSizes size)
    (i : Nat) :
    ((pages.drop (pageIndex i)).flatMap Array.toList).drop (indexInPage i)
      = (pages.flatMap Array.toList).drop i := by
  unfold pageIndex indexInPage
  induction pages generalizing size i with
  | nil => simp
  | cons page rest ih =>
    have positive : 0 < size := by
      rcases Nat.eq_zero_or_pos size with rfl | h
      · simp [pageSizes_zero] at sizes
      · exact h
    rw [pageSizes_of_pos positive, List.map_cons, List.cons.injEq] at sizes
    obtain ⟨first, others⟩ := sizes
    rcases Nat.lt_or_ge i pageSize with here | beyond
    · rw [Nat.div_eq_of_lt here, Nat.mod_eq_of_lt here, List.drop_zero]
    · rw [Nat.div_eq_sub_div pageSize_pos beyond, Nat.mod_eq_sub_mod beyond, List.drop_succ_cons, ih others,
        List.flatMap_cons]
      rcases Nat.lt_or_ge size pageSize with part | full
      · -- the page is not full, so it is the last one
        have last : size - pageSize = 0 := by omega
        rw [last, pageSizes_zero, List.map_eq_nil_iff] at others
        have outside : page.toList.length ≤ i := by simp; omega
        rw [others]
        simp [List.drop_eq_nil_of_le outside]
      · have pageFull : page.toList.length = pageSize := by simp; omega
        have passed : page.toList.drop i = [] := List.drop_eq_nil_of_le (by omega)
        rw [List.drop_append, passed, pageFull, List.nil_append]

theorem faces_ofIndex {a : Paged β} (well : a.WellFormed) (i : Nat) : a.Faces (.ofIndex i) (a.toList.drop i) :=
  ⟨Nat.mod_lt i pageSize_pos, drop_flatMap_pages well i⟩

/-- A page with another one behind it is full, and no page is more than that. -/
theorem size_of_drop_eq_cons {a : Paged β} (well : a.WellFormed) {k : Nat} {page : Array β} {rest : List (Array β)}
    (stands : a.pages.toList.drop k = page :: rest) :
    page.size ≤ pageSize ∧ (rest ≠ [] → page.size = pageSize) := by
  have count := congrArg List.length well
  have left := congrArg List.length stands
  have size : (pageSizes a.size)[k]? = some page.size := by
    rw [← well, List.getElem?_map, ← List.head?_drop, stands]
    rfl
  simp only [pageSizes, List.length_map, List.length_range, List.length_drop, List.length_cons] at count left
  have inside : k < pagesFor a.size := by omega
  simp only [pageSizes, List.getElem?_map, List.getElem?_range inside, Option.map_some, Option.some.injEq] at size
  rw [← size]
  refine ⟨Nat.min_le_left _ _, fun other => ?_⟩
  have another : 0 < rest.length := List.length_pos_iff.2 other
  simp only [pagesFor, pageSize] at count ⊢
  omega

namespace Faces

variable {a : Paged β} {c : Cursor}

theorem length_le {list : List β} (h : a.Faces c list) (well : a.WellFormed) : list.length ≤ a.size := by
  have parts : a.toList = (a.pages.toList.take c.page).flatMap Array.toList
      ++ (a.pages.toList.drop c.page).flatMap Array.toList := by
    rw [← List.flatMap_append, List.take_append_drop]
    rfl
  rw [← h.ahead, ← length_toList well, parts, Paged.ahead, List.length_drop, List.length_append]
  omega

/-- A cursor with entries before it is the one of the first of them. -/
theorem eq_ofIndex {list : List β} (h : a.Faces c list) (well : a.WellFormed) (more : list ≠ []) :
    c = .ofIndex (a.size - list.length) := by
  have same : Cursor.ofIndex c.index = c := by
    unfold Cursor.ofIndex Cursor.index pageIndex indexInPage
    rw [Nat.add_comm, Nat.add_mul_div_right _ _ pageSize_pos, Nat.div_eq_of_lt h.place, Nat.zero_add,
      Nat.add_mul_mod_self_right, Nat.mod_eq_of_lt h.place]
  have length := congrArg List.length (faces_ofIndex well c.index).ahead
  rw [same, h.ahead, List.length_drop, length_toList well] at length
  have positive := List.length_pos_iff.2 more
  have here : a.size - list.length = c.index := by omega
  rw [here, same]

/-- A step takes the first entry off. -/
theorem next? {x : β} {list : List β} (h : a.Faces c (x :: list)) (well : a.WellFormed) :
    ∃ c', a.next? c = some (x, c') ∧ a.Faces c' list := by
  obtain ⟨place, ahead⟩ := h
  unfold Paged.ahead at ahead
  cases stands : a.pages.toList.drop c.page with
  | nil => simp [stands] at ahead
  | cons page rest =>
    obtain ⟨bound, full⟩ := size_of_drop_eq_cons well stands
    have found : a.pages[c.page]? = some page := by
      rw [← Array.getElem?_toList, ← List.head?_drop, stands, List.head?_cons]
    have behind : a.pages.toList.drop (c.page + 1) = rest := by
      rw [← List.drop_drop, stands, List.drop_one, List.tail_cons]
    rw [stands, List.flatMap_cons] at ahead
    have inside : c.place < page.size := by
      rcases Nat.lt_or_ge c.place page.size with inside | outside
      · exact inside
      · have last : rest = [] := Classical.byContradiction fun other => by
          have := full other
          omega
        have passed : page.toList.drop c.place = [] := List.drop_eq_nil_of_le (by simpa using outside)
        simp [last, passed] at ahead
    rw [List.drop_append_of_le_length (by simp; omega), List.drop_eq_getElem_cons (by simpa using inside),
      List.cons_append, List.cons.injEq, Array.getElem_toList] at ahead
    obtain ⟨here, others⟩ := ahead
    refine ⟨_, by rw [Paged.next?, page?, found, Option.bind_some, Array.getElem?_eq_getElem inside, here]; rfl, ?_⟩
    split
    · next last =>
      refine ⟨pageSize_pos, ?_⟩
      rw [List.drop_eq_nil_of_le (by simp; omega), List.nil_append] at others
      show ((a.pages.toList.drop (c.page + 1)).flatMap Array.toList).drop 0 = list
      rw [behind, List.drop_zero, others]
    · next more =>
      refine ⟨by show c.place + 1 < pageSize; omega, ?_⟩
      show ((a.pages.toList.drop c.page).flatMap Array.toList).drop (c.place + 1) = list
      rw [stands, List.flatMap_cons, List.drop_append_of_le_length (by simp; omega), others]

end Faces

/-! ## Writing -/

theorem wellFormed_replicate (size : Nat) (value : β) : (replicate size value).WellFormed := by
  have sizes : ∀ entries : Nat, (Array.replicate entries value).size = entries := by
    intro _
    simp
  unfold WellFormed replicate
  simp only [List.map_map, Function.comp_def, sizes, List.map_id']

theorem toList_replicate (size : Nat) (value : β) :
    (replicate size value).toList = List.replicate size value := by
  refine List.eq_replicate_iff.2 ⟨?_, ?_⟩
  · exact length_toList (wellFormed_replicate size value)
  · intro entry member
    simp only [toList, replicate, List.mem_flatMap, List.mem_map] at member
    obtain ⟨page, ⟨entries, -, rfl⟩, member⟩ := member
    exact (List.mem_replicate.1 (by simpa using member)).2

theorem wellFormed_modify {a : Paged β} (h : a.WellFormed) (i : Nat) (f : β → β) :
    (a.modify i f).WellFormed := by
  have sizes : (a.modify i f).pages.toList.map Array.size = a.pages.toList.map Array.size := by
    simp only [modify, Array.toList_modify]
    refine List.ext_getElem? fun page => ?_
    simp only [List.getElem?_map, List.getElem?_modify]
    cases a.pages.toList[page]? with
    | none => rfl
    | some entries => split <;> simp
  unfold WellFormed at h ⊢
  rw [sizes, h]
  rfl

theorem eq_iff_pageIndex_indexInPage {i j : Nat} :
    i = j ↔ pageIndex i = pageIndex j ∧ indexInPage i = indexInPage j := by
  constructor
  · rintro rfl
    exact ⟨rfl, rfl⟩
  · rintro ⟨page, place⟩
    rw [← Nat.div_add_mod i pageSize, ← Nat.div_add_mod j pageSize]
    unfold pageIndex at page
    unfold indexInPage at place
    rw [page, place]

theorem get?_modify (a : Paged β) (i j : Nat) (f : β → β) :
    (a.modify i f).get? j = if i = j then (a.get? j).map f else a.get? j := by
  simp only [get?, modify, Array.getElem?_modify]
  by_cases samePage : pageIndex i = pageIndex j
  · rw [if_pos samePage]
    cases a.pages[pageIndex j]? with
    | none => simp
    | some page =>
      by_cases samePlace : indexInPage i = indexInPage j
      · rw [if_pos (eq_iff_pageIndex_indexInPage.2 ⟨samePage, samePlace⟩)]
        simp [Array.getElem?_modify, samePlace]
      · rw [if_neg fun same => samePlace (eq_iff_pageIndex_indexInPage.1 same).2]
        simp [Array.getElem?_modify, samePlace]
  · rw [if_neg samePage, if_neg fun same => samePage (eq_iff_pageIndex_indexInPage.1 same).1]

theorem toList_modify {a : Paged β} (h : a.WellFormed) (i : Nat) (f : β → β) :
    (a.modify i f).toList = a.toList.modify i f := by
  refine List.ext_getElem? fun j => ?_
  rw [← get?_eq_getElem?_toList (wellFormed_modify h i f), get?_modify, List.getElem?_modify,
    get?_eq_getElem?_toList h]
  by_cases same : i = j
  · simp only [if_pos same, Option.map_eq_map]
  · simp only [if_neg same, Option.map_eq_map, Option.map_id_fun', id_eq]

/-! ## Building -/

namespace Builder

/-- The entries so far. -/
def toList (b : Builder β) : List β :=
  b.full.toList.flatMap Array.toList ++ b.last.toList

/-- All pages that were put away are full, and another page was begun after each of them. -/
structure WellFormed (b : Builder β) : Prop where
  full : ∀ page ∈ b.full.toList, page.size = pageSize
  last : b.last.size ≤ pageSize
  begun : b.full.size ≠ 0 → b.last.size ≠ 0

theorem wellFormed_empty : (empty : Builder β).WellFormed :=
  ⟨by simp [empty], by simp [empty], by simp [empty]⟩

theorem toList_empty : (empty : Builder β).toList = [] := rfl

theorem wellFormed_push {b : Builder β} (h : b.WellFormed) (value : β) :
    (b.push value).WellFormed := by
  unfold push
  split
  · next room => exact ⟨h.full, by simp; omega, by simp⟩
  · next noRoom =>
    refine ⟨?_, by simp [pageSize], by simp⟩
    intro page member
    rw [Array.toList_push, List.mem_append, List.mem_singleton] at member
    rcases member with member | rfl
    · exact h.full page member
    · have := h.last
      omega

theorem toList_push (b : Builder β) (value : β) : (b.push value).toList = b.toList ++ [value] := by
  unfold push toList
  split <;> simp

theorem wellFormed_append {b : Builder β} (h : b.WellFormed) (values : List β) :
    (b.append values).WellFormed := by
  unfold append
  induction values generalizing b with
  | nil => exact h
  | cons value values ih => exact ih (wellFormed_push h value)

theorem toList_append (b : Builder β) (values : List β) :
    (b.append values).toList = b.toList ++ values := by
  unfold append
  induction values generalizing b with
  | nil => simp
  | cons value values ih => rw [List.foldl_cons, ih, toList_push, List.append_assoc]; rfl

theorem length_toList {b : Builder β} (h : b.WellFormed) : b.toList.length = b.size := by
  have pages : ∀ pages : List (Array β), (∀ page ∈ pages, page.size = pageSize) →
      (pages.flatMap Array.toList).length = pages.length * pageSize := by
    intro pages
    induction pages with
    | nil => simp
    | cons page rest ih =>
      intro full
      rw [List.flatMap_cons, List.length_append, ih fun p m => full p (List.mem_cons_of_mem _ m),
        Array.length_toList, full page List.mem_cons_self, List.length_cons, Nat.succ_mul, Nat.add_comm]
  unfold toList size
  rw [List.length_append, pages _ h.full, Array.length_toList, Array.length_toList]

theorem toList_build (b : Builder β) : b.build.toList = b.toList := by
  unfold build Paged.toList toList
  by_cases blank : b.last.isEmpty
  · have : b.last = #[] := Array.isEmpty_iff.1 blank
    simp [this]
  · simp [blank]

theorem wellFormed_build {b : Builder β} (h : b.WellFormed) : b.build.WellFormed := by
  have sizes : b.full.toList.map Array.size = List.replicate b.full.size pageSize := by
    refine List.eq_replicate_iff.2 ⟨by simp, ?_⟩
    simpa using h.full
  unfold Paged.WellFormed build
  rcases Nat.eq_zero_or_pos b.last.size with none | some
  · have noPages : b.full.size = 0 := Classical.byContradiction fun pages => h.begun pages none
    have last : b.last = #[] := Array.size_eq_zero_iff.1 none
    have full : b.full = #[] := Array.size_eq_zero_iff.1 noPages
    simp [size, last, full, pageSizes_zero]
  · have notEmpty : b.last.isEmpty = false := by
      rw [Array.isEmpty_eq_false_iff_exists_mem]
      exact ⟨b.last[0], Array.getElem_mem _⟩
    have room := h.last
    have length : b.size = b.full.size * pageSize + (b.last.size - 1) + 1 := by
      unfold size
      omega
    have remainder : b.last.size - 1 < pageSize := by omega
    simp only [notEmpty, Bool.false_eq_true, if_false, Array.toList_push, List.map_append, sizes,
      List.map_cons, List.map_nil]
    rw [length, pageSizes_add_one, Nat.mul_comm, Nat.mul_add_div pageSize_pos,
      Nat.div_eq_of_lt remainder, Nat.mul_add_mod, Nat.mod_eq_of_lt remainder]
    congr 2
    omega

end Builder

theorem wellFormed_ofList (values : List β) : (ofList values).WellFormed :=
  Builder.wellFormed_build (Builder.wellFormed_append Builder.wellFormed_empty values)

theorem toList_ofList (values : List β) : (ofList values).toList = values := by
  rw [ofList, Builder.toList_build, Builder.toList_append, Builder.toList_empty, List.nil_append]

end Paged

end NetworkAnalysis
