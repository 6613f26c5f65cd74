import NetworkAnalysis.Table

/-!
# Heap sort

The entries of a table are read as a binary tree: below the entry at `i` stand those at `2 * i + 1` and
`2 * i + 2`. `siftDown` lets an entry sink until no entry below it comes after it. Sinking all entries, the
last one first, leaves an entry that none comes after at the top; it is then swapped with the last entry,
and the entry swapped in sinks among the others, until the table is in order.
-/

namespace NetworkAnalysis.Sorting

variable {n : Nat} {β : Type} (before : β → β → Bool)

/-- The later one of the entries below a place, the first of which stands at `left`. Only the first `size`
entries count. -/
def laterChild (t : Table n β) (size left : Nat) (fits : size ≤ n) (inside : left < size) : Fin n :=
  let first : Fin n := ⟨left, by omega⟩
  if h : left + 1 < size then
    let second : Fin n := ⟨left + 1, by omega⟩
    if before t[first] t[second] then second else first
  else
    first

theorem le_laterChild (t : Table n β) (size left : Nat) (fits : size ≤ n) (inside : left < size) :
    left ≤ (laterChild before t size left fits inside).val := by
  simp only [laterChild]
  split
  · split <;> simp
  · simp

/-- Lets the entry at a place sink among the first `size` entries. -/
def siftDown (size : Nat) (fits : size ≤ n) (t : Table n β) (place : Fin n) : Table n β :=
  if inside : 2 * place.val + 1 < size then
    let child := laterChild before t size (2 * place.val + 1) fits inside
    if before t[place] t[child] then siftDown size fits (t.swap place child) child else t
  else
    t
termination_by n - place.val
decreasing_by
  have := le_laterChild before t size (2 * place.val + 1) fits inside
  have := (laterChild before t size (2 * place.val + 1) fits inside).isLt
  omega

/-- The table with no entry before one above it. -/
def heapify (t : Table n β) : Table n β :=
  (List.finRange n).foldr (fun place t => siftDown before n (Nat.le_refl n) t place) t

/-- Moves the top entry to `place` and puts the entries before that place in order again. -/
def extract (t : Table n β) (place : Fin n) : Table n β :=
  let top : Fin n := ⟨0, place.pos⟩
  siftDown before place.val (Nat.le_of_lt place.isLt) (t.swap top place) top

/-- The entries of a list in order. -/
def heapSort (entries : List β) : List β :=
  let t := heapify before (Table.ofList entries)
  ((List.finRange entries.length).foldr (fun place t => extract before t place) t).toList

end NetworkAnalysis.Sorting
