import Mathlib.Order.Fin.Basic
import NetworkAnalysis.Proofs.Rows
import NetworkAnalysis.Sorting.HeapSort

/-!
# Heap sort puts entries in order

The order may leave entries undecided, so that it is in order for one to stand in front of another if the other does not
come before it (`InOrder`). In a heap every entry is in order with the one above it. While an entry sinks, this holds of
all pairs but those in which it stands above, and the entries below it are in order with the one above it (`Sinking`).
Each extraction takes a last entry off the heap, behind which everything stays in order (`Extracted`).
-/

namespace NetworkAnalysis.Sorting

variable {n : Nat} {β : Type} {before : β → β → Bool}

/-! ## Orders -/

/-- The first entry may stand in front of the second: that one does not come before it. -/
def InOrder (before : β → β → Bool) (a b : β) : Prop :=
  before b a = false

theorem inOrder_iff {a b : β} : InOrder before a b ↔ (!before b a) = true := by
  simp [InOrder]

/-- An order in which entries may be undecided, but not in a way that others would decide. -/
structure WeakOrder (before : β → β → Bool) : Prop where
  asymm : ∀ {a b : β}, before a b = true → InOrder before a b
  trans : ∀ {a b c : β}, InOrder before a b → InOrder before b c → InOrder before a c

theorem WeakOrder.refl (order : WeakOrder before) (a : β) : InOrder before a a := by
  cases here : before a a with
  | false => exact here
  | true => exact order.asymm here

theorem WeakOrder.total (order : WeakOrder before) (a b : β) : InOrder before a b ∨ InOrder before b a := by
  cases here : before b a with
  | false => exact .inl here
  | true => exact .inr (order.asymm here)

theorem WeakOrder.ofKey {γ : Type} [LinearOrder γ] (key : β → γ) : WeakOrder fun a b => key a < key b where
  asymm := fun first => decide_eq_false (lt_asymm (of_decide_eq_true first))
  trans := fun first second =>
    decide_eq_false (not_lt.2 (le_trans (not_lt.1 (of_decide_eq_false first)) (not_lt.1 (of_decide_eq_false second))))

/-! ## Heaps -/

/-- The second place is right below the first one. -/
def Below (i j : Nat) : Prop :=
  j = 2 * i + 1 ∨ j = 2 * i + 2

theorem Below.lt {i j : Nat} (h : Below i j) : i < j := by
  unfold Below at h
  omega

theorem Below.unique {i i' j : Nat} (h : Below i j) (h' : Below i' j) : i = i' := by
  unfold Below at h h'
  omega

/-- Each of the first `size` entries is in order with the one above it, if that one is at `start` or later. -/
def Heap (before : β → β → Bool) (size start : Nat) (t : Table n β) : Prop :=
  ∀ i j : Fin n, Below i j → j.val < size → start ≤ i.val → InOrder before t[j] t[i]

/-- A heap but for the entry at a place, which may have to sink. -/
structure Sinking (before : β → β → Bool) (size start : Nat) (t : Table n β) (place : Fin n) : Prop where
  apart : ∀ i j : Fin n, Below i j → j.val < size → start ≤ i.val → i ≠ place → InOrder before t[j] t[i]
  across : ∀ i j : Fin n, Below i place → Below place j → j.val < size → start ≤ i.val → InOrder before t[j] t[i]

section Sink

variable {size start : Nat} {t : Table n β} {place : Fin n}

theorem below_laterChild (fits : size ≤ n) (inside : 2 * place.val + 1 < size) :
    Below place (laterChild before t size (2 * place.val + 1) fits inside)
      ∧ (laterChild before t size (2 * place.val + 1) fits inside).val < size := by
  unfold laterChild Below
  dsimp only
  split
  · split <;> constructor <;> dsimp only <;> omega
  · constructor <;> dsimp only <;> omega

/-- Both entries below a place are in order with the later one. -/
theorem inOrder_laterChild (order : WeakOrder before) (fits : size ≤ n) (inside : 2 * place.val + 1 < size)
    {j : Fin n} (below : Below place j) (bound : j.val < size) :
    InOrder before t[j] t[laterChild before t size (2 * place.val + 1) fits inside] := by
  obtain ⟨j, small⟩ := j
  unfold laterChild
  dsimp only at below bound ⊢
  rcases below with rfl | rfl
  · split
    · split
      · next later => exact order.asymm later
      · exact order.refl _
    · exact order.refl _
  · rw [dif_pos bound]
    split
    · exact order.refl _
    · next other => exact Bool.eq_false_iff.2 other

/-- An entry that comes before the later one of those below it changes places with that one. -/
theorem Sinking.swap (order : WeakOrder before) (h : Sinking before size start t place) {child : Fin n}
    (below : Below place child) (bound : child.val < size) (above : start ≤ place.val)
    (later : ∀ j : Fin n, Below place j → j.val < size → InOrder before t[j] t[child])
    (sinks : before t[place] t[child] = true) : Sinking before size start (t.swap place child) child := by
  have beneath : ∀ {i j : Fin n}, Below i j → j ≠ i := fun step => (Fin.lt_def.2 step.lt).ne'
  constructor
  case apart =>
    intro i j step inside lower other
    rw [Table.getElem_swap, Table.getElem_swap, if_neg other]
    by_cases top : i = place
    · -- the later child has come up, above its sibling and the entry that sinks
      subst top
      rw [if_pos rfl, if_neg (beneath step)]
      split
      · exact order.asymm sinks
      · exact later j step inside
    · rw [if_neg top]
      by_cases into : j = place
      · -- it was in order with the entry above the place before
        subst into
        rw [if_pos rfl]
        exact h.across i child step below bound lower
      · have beside : j ≠ child := by
          rintro rfl
          exact top (Fin.ext (step.unique below))
        rw [if_neg into, if_neg beside]
        exact h.apart i j step inside lower top
  case across =>
    intro i j step step' inside lower
    obtain rfl : i = place := Fin.ext (step.unique below)
    have apartPlace : j ≠ i := (Fin.lt_def.2 (Nat.lt_trans below.lt step'.lt)).ne'
    rw [Table.getElem_swap, Table.getElem_swap, if_neg apartPlace, if_neg (beneath step'), if_pos rfl]
    exact h.apart child j step' inside (Nat.le_trans above (Nat.le_of_lt below.lt)) (beneath below)

theorem heap_siftDown (order : WeakOrder before) (fits : size ≤ n) (h : Sinking before size start t place)
    (above : start ≤ place.val) : Heap before size start (siftDown before size fits t place) := by
  fun_induction siftDown before size fits t place with
  | case1 t place inside child sinks ih =>
    obtain ⟨below, bound⟩ : Below place child ∧ child.val < size := below_laterChild fits inside
    refine ih (h.swap order below bound above (fun j => inOrder_laterChild order fits inside) sinks) ?_
    exact Nat.le_trans above (Nat.le_of_lt below.lt)
  | case2 t place inside child stays =>
    intro i j below bound lower
    by_cases here : i = place
    · subst here
      exact order.trans (inOrder_laterChild order fits inside below bound) (Bool.eq_false_iff.2 stays)
    · exact h.apart i j below bound lower here
  | case3 t place leaf =>
    intro i j below bound lower
    refine h.apart i j below bound lower ?_
    rintro rfl
    unfold Below at below
    omega

variable (before) in
/-- An entry sinks among the first ones only. -/
theorem exists_getElem_siftDown (fits : size ≤ n) (t : Table n β) (place i : Fin n) :
    ∃ j : Fin n, (siftDown before size fits t place)[i] = t[j] ∧ (i.val < size → j.val < size)
      ∧ (size ≤ i.val → j = i) := by
  fun_induction siftDown before size fits t place with
  | case1 t place inside child sinks ih =>
    obtain ⟨below, bound⟩ : Below place child ∧ child.val < size := below_laterChild fits inside
    obtain ⟨j, found, first, last⟩ := ih
    rw [found]
    by_cases high : size ≤ i.val
    · obtain rfl := last high
      refine ⟨j, ?_, fun low => low, fun _ => rfl⟩
      rw [Table.getElem_swap, if_neg, if_neg]
      all_goals
        intro same
        subst same
        omega
    · rw [Table.getElem_swap]
      split
      · exact ⟨child, rfl, fun _ => bound, fun beyond => absurd beyond high⟩
      · split
        · exact ⟨place, rfl, fun _ => by omega, fun beyond => absurd beyond high⟩
        · exact ⟨j, rfl, first, last⟩
  | case2 t place inside child stays => exact ⟨i, rfl, id, fun _ => rfl⟩
  | case3 t place leaf => exact ⟨i, rfl, id, fun _ => rfl⟩

end Sink

/-! ## The whole sort -/

/-- Steps at all places, from the last one on, lead down to the first place. -/
theorem foldr_finRange_induct {σ : Type} {P : Nat → σ → Prop} {step : Fin n → σ → σ} {state : σ} (start : P n state)
    (keeps : ∀ (place : Fin n) (state : σ), P (place.val + 1) state → P place.val (step place state)) :
    P 0 ((List.finRange n).foldr step state) := by
  induction n generalizing P with
  | zero => exact start
  | succ n ih =>
    rw [List.finRange_succ, List.foldr_cons, List.foldr_map]
    exact keeps 0 _ (@ih (fun place => P (place + 1)) _ start fun place state => keeps place.succ state)

theorem heap_heapify (order : WeakOrder before) (t : Table n β) : Heap before n 0 (heapify before t) := by
  refine foldr_finRange_induct (P := fun place t => Heap before n place t) ?_ ?_
  · intro i j _ _ lower
    exact absurd i.isLt (Nat.not_lt.2 lower)
  · intro place t heap
    refine heap_siftDown order _ ⟨?_, ?_⟩ (Nat.le_refl _)
    · intro i j below bound lower other
      exact heap i j below bound (Nat.lt_of_le_of_ne lower fun same => other (Fin.ext same.symm))
    · intro i j below _ _ lower
      exact absurd below.lt (Nat.not_lt.2 lower)

theorem Heap.top (order : WeakOrder before) {size : Nat} {t : Table n β} (heap : Heap before size 0 t) {top : Fin n}
    (zero : top.val = 0) {i : Fin n} (bound : i.val < size) : InOrder before t[i] t[top] := by
  obtain ⟨i, small⟩ := i
  induction i using Nat.strongRecOn with
  | _ i ih =>
    rcases Nat.eq_zero_or_pos i with rfl | positive
    · obtain rfl : (⟨0, small⟩ : Fin n) = top := Fin.ext zero.symm
      exact order.refl _
    · have parent : Below ((i - 1) / 2) i := by
        unfold Below
        omega
      dsimp only at bound
      have above := heap ⟨(i - 1) / 2, by omega⟩ ⟨i, small⟩ parent bound (Nat.zero_le _)
      exact order.trans above (ih ((i - 1) / 2) (by omega) (by omega) (by dsimp only; omega))

/-- The first `size` entries are a heap, and the others stand in order behind all that are in front of them. -/
structure Extracted (before : β → β → Bool) (size : Nat) (t : Table n β) : Prop where
  heap : Heap before size 0 t
  behind : ∀ i j : Fin n, i < j → size ≤ j.val → InOrder before t[i] t[j]

variable (before) in
/-- An extraction moves the entries up to its place, and the top to the place. -/
theorem exists_getElem_extract (t : Table n β) (place i : Fin n) :
    ∃ j : Fin n, (extract before t place)[i] = t[j] ∧ (i < place → j ≤ place) ∧ (i = place → j.val = 0)
      ∧ (place < i → j = i) := by
  obtain ⟨j, found, first, last⟩ := exists_getElem_siftDown before (Nat.le_of_lt place.isLt)
    (t.swap ⟨0, place.pos⟩ place) ⟨0, place.pos⟩ i
  rw [extract, found, Table.getElem_swap]
  rcases lt_trichotomy i place with low | rfl | high
  · have low' := first low
    suffices among : ∃ k : Fin n, k ≤ place
        ∧ (if j = ⟨0, place.pos⟩ then t[place] else if j = place then t[(⟨0, place.pos⟩ : Fin n)] else t[j]) = t[k] by
      obtain ⟨k, inside, same⟩ := among
      exact ⟨k, same, fun _ => inside, fun here => absurd here low.ne, fun high => absurd high low.not_gt⟩
    split
    · exact ⟨place, le_refl _, rfl⟩
    · split
      · exact ⟨_, Nat.zero_le _, rfl⟩
      · exact ⟨j, Nat.le_of_lt low', rfl⟩
  · obtain rfl := last (Nat.le_refl _)
    refine ⟨⟨0, j.pos⟩, ?_, fun low => absurd low (lt_irrefl _), fun _ => rfl, fun high => absurd high (lt_irrefl _)⟩
    split
    · next top => rw [← top]
    · exact if_pos rfl
  · obtain rfl := last (Nat.le_of_lt high)
    refine ⟨j, ?_, fun low => absurd low high.not_gt, fun here => absurd here high.ne', fun _ => rfl⟩
    rw [if_neg, if_neg high.ne']
    rintro rfl
    exact absurd high (Nat.not_lt_zero _)

/-- One more extraction puts the top of the heap in front of the entries that are in order. -/
theorem Extracted.extract (order : WeakOrder before) {t : Table n β} {place : Fin n}
    (h : Extracted before (place.val + 1) t) : Extracted before place.val (extract before t place) := by
  constructor
  case heap =>
    refine heap_siftDown order _ ⟨?_, ?_⟩ (Nat.zero_le _)
    · intro i j below bound _ other
      have positive : i.val ≠ 0 := Fin.val_ne_of_ne other
      have same : ∀ k : Fin n, i.val ≤ k.val → k.val < place.val → (t.swap ⟨0, place.pos⟩ place)[k] = t[k] := by
        intro k high low
        rw [Table.getElem_swap, if_neg, if_neg]
        · exact fun here => absurd low (here ▸ Nat.lt_irrefl _)
        · rintro rfl
          exact positive (Nat.le_zero.1 high)
      rw [same i (Nat.le_refl _) (Nat.lt_trans below.lt bound), same j (Nat.le_of_lt below.lt) bound]
      exact h.heap i j below (Nat.lt_succ_of_lt bound) (Nat.zero_le _)
    · intro i j below _ _ _
      exact absurd below.lt (Nat.not_lt_zero _)
  case behind =>
    intro i j less lower
    obtain ⟨i', found, low, here, high⟩ := exists_getElem_extract before t place i
    obtain ⟨j', found', -, top, last⟩ := exists_getElem_extract before t place j
    rw [found, found']
    rcases Nat.eq_or_lt_of_le lower with same | beyond
    · -- the place holds the old top
      obtain rfl : place = j := Fin.ext same
      exact h.heap.top order (top rfl) (Nat.lt_succ_of_le (low less))
    · -- nothing has moved there, and what stands in front of it stood in front of it before
      obtain rfl := last beyond
      refine h.behind i' j' ?_ beyond
      rcases lt_trichotomy i place with less' | rfl | beyond'
      · exact lt_of_le_of_lt (low less') beyond
      · have := here rfl
        omega
      · exact high beyond' ▸ less

theorem pairwise_heapSort (order : WeakOrder before) (entries : List β) :
    (heapSort before entries).Pairwise (InOrder before) := by
  have extracted : Extracted before 0 ((List.finRange entries.length).foldr (fun place t => extract before t place)
      (heapify before (Table.ofList entries))) := by
    refine foldr_finRange_induct (P := Extracted before) ⟨heap_heapify order _, ?_⟩ fun place t => .extract order
    intro i j _ beyond
    exact absurd j.isLt (Nat.not_lt.2 beyond)
  rw [heapSort, List.pairwise_iff_getElem]
  intro i j bound bound' less
  rw [Table.getElem_toList, Table.getElem_toList]
  exact extracted.behind _ _ less (Nat.zero_le _)

end NetworkAnalysis.Sorting
