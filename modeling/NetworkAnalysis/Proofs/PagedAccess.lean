import Mathlib.Algebra.Order.Floor.Div
import NetworkAnalysis.Proofs.Paged

/-!
# Paged arrays behave as lists

Whatever is read, written, added or filled one after the other, a paged array answers as the plain list of its
entries does (`Access.onPages` against `Access.onList`). One access keeps the array in step with the list, and so a
row of accesses does, whether the array was made in one piece or grown entry by entry. After each of them the pages
are as full as they can be (`Holds`), an entry is what the accesses that name it have made of it
(`Access.entryAfter`), and what is refused is an access beyond the end, which changes nothing.
-/

namespace NetworkAnalysis.Paged

variable {β : Type}

/-! ## Filled pages -/

/-- An array of pages with the entries of a list: every page but the last is full, and the last is not empty. -/
structure Holds (a : Paged β) (list : List β) : Prop where
  size : a.size = list.length
  pageCount : a.pageCount = list.length ⌈/⌉ pageSize
  full : ∀ page ∈ a.pages.toList.dropLast, page.size = pageSize
  last : ∀ page ∈ a.pages.toList.getLast?, 0 < page.size ∧ page.size ≤ pageSize
  entries : (a.pages.toList.map Array.toList).flatten = list

theorem pagesFor_eq_ceilDiv (size : Nat) : pagesFor size = size ⌈/⌉ pageSize := by
  rw [Nat.ceilDiv_eq_add_pred_div]
  rfl

example : pagesFor (2 * pageSize) = 2 ∧ pagesFor (2 * pageSize + 1) = 3 := by decide

/-- The sizes that a length asks for are those of full pages and of a last one that is not empty. -/
theorem size_of_pageSizes (size : Nat) :
    (∀ entries ∈ (pageSizes size).dropLast, entries = pageSize)
      ∧ ∀ entries ∈ (pageSizes size).getLast?, 0 < entries ∧ entries ≤ pageSize := by
  cases size with
  | zero => simp [pageSizes_zero]
  | succ size =>
    have remainder := Nat.mod_lt size pageSize_pos
    rw [pageSizes_add_one, List.dropLast_concat, List.getLast?_concat]
    refine ⟨fun entries member => List.eq_of_mem_replicate member, fun entries last => ?_⟩
    obtain rfl := Option.some.inj last
    omega

theorem WellFormed.holds {a : Paged β} (well : a.WellFormed) : a.Holds a.toList := by
  have sizes : a.pages.toList.map Array.size = pageSizes a.size := well
  obtain ⟨full, last⟩ := size_of_pageSizes a.size
  rw [← sizes] at full last
  constructor
  case size => exact (length_toList well).symm
  case pageCount =>
    have count := congrArg List.length sizes
    simp only [pageSizes, List.length_map, List.length_range] at count
    rw [length_toList well, ← pagesFor_eq_ceilDiv, ← count]
    rfl
  case full =>
    intro page member
    exact full page.size (List.map_dropLast ▸ List.mem_map_of_mem member)
  case last =>
    intro page member
    exact last page.size (List.getLast?_map ▸ Option.mem_map_of_mem _ member)
  case entries => exact List.flatMap_def.symm

theorem wellFormed_fill {a : Paged β} (well : a.WellFormed) (value : β) : (a.fill value).WellFormed := by
  have sizes : (a.fill value).pages.toList.map Array.size = a.pages.toList.map Array.size := by
    simp [fill, Function.comp_def]
  exact sizes.trans well

theorem toList_fill {a : Paged β} (well : a.WellFormed) (value : β) :
    (a.fill value).toList = List.replicate a.toList.length value := by
  refine List.eq_replicate_iff.2 ⟨?_, fun entry member => ?_⟩
  · rw [length_toList well]
    exact length_toList (wellFormed_fill well value)
  · simp only [toList, fill, Array.toList_map, List.mem_flatMap, List.mem_map] at member
    obtain ⟨_, ⟨page, -, rfl⟩, member⟩ := member
    obtain ⟨_, -, rfl⟩ := List.mem_map.1 (Array.toList_map ▸ member)
    rfl

/-! ## Writing one entry -/

theorem get?_isSome_iff {a : Paged β} (well : a.WellFormed) (i : Nat) : (a.get? i).isSome ↔ i < a.toList.length := by
  rw [get?_eq_getElem?_toList well]
  simp

theorem set?_of_lt {a : Paged β} (well : a.WellFormed) {i : Nat} (inside : i < a.toList.length) (value : β) :
    ∃ changed, a.set? i value = some changed ∧ changed.WellFormed ∧ changed.toList = a.toList.set i value := by
  refine ⟨_, if_pos ((get?_isSome_iff well i).2 inside), wellFormed_modify well i _, ?_⟩
  rw [toList_modify well, ← List.set_eq_modify]

theorem set?_of_le {a : Paged β} (well : a.WellFormed) {i : Nat} (beyond : a.toList.length ≤ i) (value : β) :
    a.set? i value = none := by
  refine if_neg fun there => ?_
  exact Nat.not_lt.2 beyond ((get?_isSome_iff well i).1 there)

/-! ## Accesses -/

/-- A use of an array. Only numbers are added to. -/
inductive Access : Type → Type 1 where
  /-- Reads an entry. -/
  | get {β : Type} (i : Nat) : Access β
  /-- Writes an entry. -/
  | set {β : Type} (i : Nat) (value : β) : Access β
  /-- Reads an entry and adds to it. The sum is that of numbers without an upper limit, so it is taken to fit a word. -/
  | getAndAdd (i delta : Nat) : Access Nat
  /-- Writes all entries. -/
  | fill {β : Type} (value : β) : Access β
  /-- Reads all entries. -/
  | iter {β : Type} : Access β
  /-- Reads the number of entries. -/
  | len {β : Type} : Access β

/-- What an access is told. -/
inductive Answer (β : Type) where
  /-- It was carried out. -/
  | done
  /-- The entry that it reads. -/
  | entry (value : β)
  /-- All entries. -/
  | entries (values : List β)
  /-- The number of entries. -/
  | count (size : Nat)
  /-- There is no such entry. -/
  | refused
deriving DecidableEq, Repr

namespace Access

/-- The entry that an access names. -/
def place? : Access β → Option Nat
  | get i => some i
  | set i _ => some i
  | getAndAdd i _ => some i
  | fill _ => none
  | iter => none
  | len => none

/-- The answer of an array, and the array after the access. -/
def onPages : {β : Type} → Access β → Paged β → Answer β × Paged β
  | _, get i, a =>
    match a.get? i with
    | some value => (.entry value, a)
    | none => (.refused, a)
  | _, set i value, a =>
    match a.set? i value with
    | some changed => (.done, changed)
    | none => (.refused, a)
  | _, getAndAdd i delta, a =>
    match a.getAndAdd? i delta with
    | some (old, changed) => (.entry old, changed)
    | none => (.refused, a)
  | _, fill value, a => (.done, a.fill value)
  | _, iter, a => (.entries a.toList, a)
  | _, len, a => (.count a.size, a)

/-- The answer of a list, and the list after the access. -/
def onList : {β : Type} → Access β → List β → Answer β × List β
  | _, get i, list => (list[i]?.elim .refused .entry, list)
  | _, set i value, list => if i < list.length then (.done, list.set i value) else (.refused, list)
  | _, getAndAdd i delta, list => list[i]?.elim (.refused, list) fun old => (.entry old, list.set i (old + delta))
  | _, fill value, list => (.done, List.replicate list.length value)
  | _, iter, list => (.entries list, list)
  | _, len, list => (.count list.length, list)

/-- What entry `i` is after an access, by what it was before. -/
def entryAfter (i : Nat) : {β : Type} → β → Access β → β
  | _, old, set j value => if j = i then value else old
  | _, old, getAndAdd j delta => if j = i then old + delta else old
  | _, _, fill value => value
  | _, old, get _ => old
  | _, old, iter => old
  | _, old, len => old

theorem length_onList (access : Access β) (list : List β) : (access.onList list).2.length = list.length := by
  cases access with
  | get i => rfl
  | set i value =>
    rw [onList]
    split
    · exact List.length_set
    · rfl
  | getAndAdd i delta =>
    rw [onList]
    cases list[i]? with
    | none => rfl
    | some old => exact List.length_set
  | fill value => exact List.length_replicate
  | iter => rfl
  | len => rfl

/-- An access changes the entry that it names and no other one. -/
theorem getElem?_onList (access : Access β) (list : List β) (i : Nat) :
    (access.onList list).2[i]? = list[i]?.map fun old => access.entryAfter i old := by
  cases access with
  | get j => simp [onList, entryAfter]
  | set j value =>
    have changed : ((set j value).onList list).2 = list.modify j fun _ => value := by
      rw [onList, ← List.set_eq_modify]
      split
      · rfl
      · next beyond => exact (List.set_eq_of_length_le (Nat.le_of_not_lt beyond)).symm
    rw [changed, List.getElem?_modify]
    rfl
  | getAndAdd j delta =>
    have changed : ((getAndAdd j delta).onList list).2 = list.modify j fun old => old + delta := by
      rw [onList, List.modify_eq_set_getElem?]
      cases list[j]? <;> rfl
    rw [changed, List.getElem?_modify]
    rfl
  | fill value =>
    simp only [onList, entryAfter, List.getElem?_replicate]
    rcases Nat.lt_or_ge i list.length with inside | beyond
    · simp [inside]
    · simp [beyond]
  | iter => simp [onList, entryAfter]
  | len => simp [onList, entryAfter]

/-- Only an access beyond the end is refused. -/
theorem onList_eq_refused_iff (access : Access β) (list : List β) :
    (access.onList list).1 = .refused ↔ ∃ i ∈ access.place?, list.length ≤ i := by
  cases access with
  | get i =>
    rcases Nat.lt_or_ge i list.length with inside | beyond
    · simp [onList, place?, inside]
    · simp [onList, place?, beyond]
  | set i value =>
    rcases Nat.lt_or_ge i list.length with inside | beyond
    · simp [onList, place?, inside]
    · simp [onList, place?, Nat.not_lt.2 beyond, beyond]
  | getAndAdd i delta =>
    rcases Nat.lt_or_ge i list.length with inside | beyond
    · simp [onList, place?, inside]
    · simp [onList, place?, beyond]
  | fill value => simp [onList, place?]
  | iter => simp [onList, place?]
  | len => simp [onList, place?]

/-- An access that an array refuses leaves it as it was. -/
theorem onPages_of_refused {access : Access β} {a : Paged β} (refused : (access.onPages a).1 = .refused) :
    (access.onPages a).2 = a := by
  cases access with
  | get i =>
    rw [onPages]
    split <;> rfl
  | set i value =>
    rw [onPages] at refused ⊢
    split at refused
    · cases refused
    · rfl
  | getAndAdd i delta =>
    rw [onPages] at refused ⊢
    split at refused
    · cases refused
    · rfl
  | fill value => cases refused
  | iter => rfl
  | len => rfl

/-- An array answers an access as the list of its entries does, and stays in step with the list. -/
theorem onPages_agrees (access : Access β) {a : Paged β} (well : a.WellFormed) :
    (access.onPages a).1 = (access.onList a.toList).1
      ∧ (access.onPages a).2.WellFormed ∧ (access.onPages a).2.toList = (access.onList a.toList).2 := by
  cases access with
  | get i =>
    rw [onPages, onList, get?_eq_getElem?_toList well]
    cases a.toList[i]? <;> exact ⟨rfl, well, rfl⟩
  | set i value =>
    rw [onPages, onList]
    rcases Nat.lt_or_ge i a.toList.length with inside | beyond
    · obtain ⟨changed, written, well', list⟩ := set?_of_lt well inside value
      rw [written, if_pos inside]
      exact ⟨rfl, well', list⟩
    · rw [set?_of_le well beyond, if_neg (Nat.not_lt.2 beyond)]
      exact ⟨rfl, well, rfl⟩
  | getAndAdd i delta =>
    rw [onPages, onList, getAndAdd?, get?_eq_getElem?_toList well]
    cases there : a.toList[i]? with
    | none => exact ⟨rfl, well, rfl⟩
    | some old =>
      obtain ⟨inside, -⟩ := List.getElem?_eq_some_iff.1 there
      obtain ⟨changed, written, well', list⟩ := set?_of_lt well inside (old + delta)
      rw [Option.bind_some, written]
      exact ⟨rfl, well', list⟩
  | fill value => exact ⟨rfl, wellFormed_fill well value, toList_fill well value⟩
  | iter => exact ⟨rfl, well, rfl⟩
  | len => exact ⟨congrArg _ (length_toList well).symm, well, rfl⟩

end Access

/-! ## Rows of accesses -/

/-- The array after a row of accesses. -/
def after (a : Paged β) (accesses : List (Access β)) : Paged β :=
  accesses.foldl (fun a access => (access.onPages a).2) a

/-- The list after a row of accesses. -/
def listAfter (list : List β) (accesses : List (Access β)) : List β :=
  accesses.foldl (fun list access => (access.onList list).2) list

theorem after_agrees (accesses : List (Access β)) {a : Paged β} (well : a.WellFormed) :
    (a.after accesses).WellFormed ∧ (a.after accesses).toList = listAfter a.toList accesses := by
  induction accesses generalizing a with
  | nil => exact ⟨well, rfl⟩
  | cons access rest ih =>
    obtain ⟨-, well', list⟩ := access.onPages_agrees well
    have later := ih well'
    rw [list] at later
    exact later

theorem length_listAfter (accesses : List (Access β)) (list : List β) :
    (listAfter list accesses).length = list.length := by
  induction accesses generalizing list with
  | nil => rfl
  | cons access rest ih => exact (ih _).trans (access.length_onList list)

theorem getElem?_listAfter (accesses : List (Access β)) (list : List β) (i : Nat) :
    (listAfter list accesses)[i]? = list[i]?.map fun first => accesses.foldl (Access.entryAfter i) first := by
  induction accesses generalizing list with
  | nil => exact Option.map_id'.symm
  | cons access rest ih =>
    refine (ih _).trans ?_
    rw [access.getElem?_onList, Option.map_map]
    rfl

/-- How an array is made. -/
inductive Origin (β : Type) where
  /-- In one piece, from equal entries. Any size will do, although no array that is in use has more than
  `maxPages * pageSize` entries. -/
  | replicate (size : Nat) (value : β)
  /-- By a builder that takes one entry after the other. -/
  | pushed (values : List β)

namespace Origin

/-- The array that is made. -/
def array : Origin β → Paged β
  | replicate size value => Paged.replicate size value
  | pushed values => (Builder.empty.append values).build

/-- The entries that it is made of. -/
def list : Origin β → List β
  | replicate size value => List.replicate size value
  | pushed values => values

theorem wellFormed_array (origin : Origin β) : origin.array.WellFormed := by
  cases origin with
  | replicate size value => exact wellFormed_replicate size value
  | pushed values => exact wellFormed_ofList values

theorem toList_array (origin : Origin β) : origin.array.toList = origin.list := by
  cases origin with
  | replicate size value => exact toList_replicate size value
  | pushed values => exact toList_ofList values

end Origin

/-- After any row of accesses an array still holds what a list holds after the same accesses, and answers the next
access as the list does. Nothing but an access beyond the end is refused, and that leaves the array as it was. -/
theorem after_behaves_as_list (origin : Origin β) (accesses : List (Access β)) :
    let a := origin.array.after accesses
    let list := listAfter origin.list accesses
    a.Holds list ∧ list.length = origin.list.length
      ∧ (∀ i, a.get? i = origin.list[i]?.map fun first => accesses.foldl (Access.entryAfter i) first)
      ∧ ∀ access : Access β, (access.onPages a).1 = (access.onList list).1
        ∧ ((access.onPages a).1 = .refused ↔ ∃ i ∈ access.place?, origin.list.length ≤ i)
        ∧ ((access.onPages a).1 = .refused → (access.onPages a).2 = a) := by
  intro a list
  obtain ⟨well, same⟩ := after_agrees accesses origin.wellFormed_array
  rw [origin.toList_array] at same
  have length : list.length = origin.list.length := length_listAfter accesses origin.list
  have holds := well.holds
  rw [same] at holds
  refine ⟨holds, length, fun i => ?_, fun access => ?_⟩
  · rw [get?_eq_getElem?_toList well, same, getElem?_listAfter]
  · obtain ⟨answer, -, -⟩ := access.onPages_agrees well
    rw [same] at answer
    refine ⟨answer, ?_, access.onPages_of_refused⟩
    rw [answer, access.onList_eq_refused_iff, length]

end NetworkAnalysis.Paged
