import NetworkAnalysis.Queue
import NetworkAnalysis.Sorting.HeapSort

/-!
# Introsort

Sorting by an order that may leave entries apart from each other undecided. Such entries come out next to
each other, in an order that is fixed by the steps below and is in general not the one they came in.

Short lists are sorted by merging, which keeps undecided entries as they are. A long list is divided at one
of its entries, the pivot, and each side is sorted in the same way. The number of divisions on the way to a
part is limited; a part that is still long when they are used up is sorted by `heapSort`.
-/

namespace NetworkAnalysis.Sorting

variable {β : Type}

/-- The length up to which a list is sorted by merging. -/
def shortLength : Nat := 32

/-! ## Pivots -/

/-- The place with the middle entry of three, where `less` compares the entries at two places. -/
def middle (less : Nat → Nat → Bool) (a b c : Nat) : Nat :=
  if less a b == less a c then if less b c == less a b then b else c else a

/-- A place in the section of `length` entries from `start` on, with an entry not far from the middle: the
middle one of three, which are in long sections such entries themselves. -/
def pivotPlace (less : Nat → Nat → Bool) (start length : Nat) : Nat :=
  let eighth := length / 8
  if eighth < 8 then middle less start (start + 4 * eighth) (start + 7 * eighth)
  else
    middle less (pivotPlace less start eighth) (pivotPlace less (start + 4 * eighth) eighth)
      (pivotPlace less (start + 7 * eighth) eighth)
termination_by length
decreasing_by all_goals omega

/-- Whether the entry at one place comes before the entry at another. -/
def beforeAt (before : β → β → Bool) (entries : Array β) (i j : Nat) : Bool :=
  match entries[i]?, entries[j]? with
  | some a, some b => before a b
  | _, _ => false

/-- The entries with the pivot swapped to the front. -/
def pivotFirst (before : β → β → Bool) (entries : List β) : List β :=
  let entries := entries.toArray
  (entries.swapIfInBounds 0 (pivotPlace (beforeAt before entries) 0 entries.size)).toList

/-! ## Divisions -/

/-- Entries dealt out to two sides. -/
structure Division (β : Type) where
  /-- The entries of the first side, the last one in front. -/
  first : List β := []
  /-- The entries of the second side. -/
  second : Queue β := {}

namespace Division

/-- Deals out one entry. The first entry of the second side moves to its end; the new entry goes to the end
of the first side or to the front of the second. -/
def deal (isFirst : β → Bool) (d : Division β) (entry : β) : Division β :=
  let second := d.second.rotate
  if isFirst entry then { first := entry :: d.first, second }
  else { d with second := second.pushFront entry }

/-- The entries of a list dealt out, the first of them at the end. -/
def ofList (isFirst : β → Bool) : List β → Division β
  | [] => {}
  | entry :: rest => (rest.foldl (deal isFirst) {}).deal isFirst entry

/-- The first side, with its last entry moved to the front. -/
def firstSide (d : Division β) : List β :=
  match d.first with
  | [] => []
  | last :: rest => last :: rest.reverse

/-- The second side. -/
def secondSide (d : Division β) : List β :=
  d.second.toList

end Division

/-! ## Sorting -/

/-- Sorts by at most `divisions` divisions on the way to each part. No entry comes before `floor`, which is
the pivot of the last division of which these entries are the second side. A pivot that does not come after
it is the least of the entries, and dividing at it puts the entries that are undecided from it in place. -/
def sortWithin (before : β → β → Bool) : (divisions : Nat) → (floor : Option β) → List β → List β
  | 0, _, entries =>
    if entries.length ≤ shortLength then entries.mergeSort fun a b => !before b a
    else heapSort before entries
  | divisions + 1, floor, entries =>
    if entries.length ≤ shortLength then entries.mergeSort fun a b => !before b a
    else
      match pivotFirst before entries with
      | [] => []
      | pivot :: rest =>
        if floor.any fun least => !before least pivot then
          let d := Division.ofList (fun entry => !before pivot entry) rest
          d.firstSide ++ pivot :: sortWithin before divisions none d.secondSide
        else
          let d := Division.ofList (fun entry => before entry pivot) rest
          sortWithin before divisions floor d.firstSide
            ++ pivot :: sortWithin before divisions (some pivot) d.secondSide

/-- Whether no entry comes before the one in front of it. -/
def isAscending (before : β → β → Bool) (entries : List β) : Bool :=
  (entries.zip entries.tail).all fun (a, b) => !before b a

/-- Whether every entry comes before the one in front of it. -/
def isDescending (before : β → β → Bool) (entries : List β) : Bool :=
  (entries.zip entries.tail).all fun (a, b) => before b a

/-- The entries of a list in order. Lists that are in order, or in the opposite order, are not divided. -/
def introsort (before : β → β → Bool) (entries : List β) : List β :=
  if isAscending before entries then entries
  else if isDescending before entries then entries.reverse
  else sortWithin before (2 * entries.length.log2) none entries

end NetworkAnalysis.Sorting
