/-!
# Paged arrays

A `Paged` array holds its entries in pages of `pageSize` entries, so that no block of memory has to be
as large as the whole. Every page but the last is full, and the last one is not empty; entry `i` is
entry `i % pageSize` of page `i / pageSize`. Reading and writing beyond the length answer `none`. A
`Paged.Cursor` goes from entry to entry without dividing: it steps to the next page where one ends.

`Paged.Builder` grows such an array from the end, without knowing its length beforehand.
-/

namespace NetworkAnalysis

/-- The entries of a full page. -/
def pageSize : Nat := 16384

/-- The largest number of pages. -/
def maxPages : Nat := 2147483647

/-- The page that entry `i` stands on. -/
def pageIndex (i : Nat) : Nat :=
  i / pageSize

/-- The place of entry `i` on its page. -/
def indexInPage (i : Nat) : Nat :=
  i % pageSize

/-- The number of pages for `size` entries. The sum has no bound here. In words of 64 bits it is the same for sizes up
to `2^64 - pageSize`, and an array has at most `maxPages * pageSize` entries. -/
def pagesFor (size : Nat) : Nat :=
  (size + (pageSize - 1)) / pageSize

/-- An array cut into pages. -/
structure Paged (β : Type) where
  /-- The pages, in order. -/
  pages : Array (Array β)
  /-- The number of entries. -/
  size : Nat

namespace Paged

variable {β : Type}

/-- The sizes of the pages for `size` entries: full ones and a rest. -/
def pageSizes (size : Nat) : List Nat :=
  (List.range (pagesFor size)).map fun page => min pageSize (size - page * pageSize)

/-- An array of `size` equal entries. -/
def replicate (size : Nat) (value : β) : Paged β where
  pages := ((pageSizes size).map fun entries => Array.replicate entries value).toArray
  size := size

/-- The array without entries. -/
def empty : Paged β where
  pages := #[]
  size := 0

/-- Entry `i`, or `none` beyond the end. -/
def get? (a : Paged β) (i : Nat) : Option β :=
  a.pages[pageIndex i]?.bind fun page => page[indexInPage i]?

/-- The array with the entry `i` changed by `f`; beyond the end nothing changes. -/
def modify (a : Paged β) (i : Nat) (f : β → β) : Paged β :=
  { a with pages := a.pages.modify (pageIndex i) fun page => page.modify (indexInPage i) f }

/-- The array with the entry `i` changed by `f`, or `none` beyond the end. -/
def modify? (a : Paged β) (i : Nat) (f : β → β) : Option (Paged β) :=
  if (a.get? i).isSome then some (a.modify i f) else none

/-- The array with another entry `i`, or `none` beyond the end. -/
def set? (a : Paged β) (i : Nat) (value : β) : Option (Paged β) :=
  a.modify? i fun _ => value

/-- The old entry `i`, and the array with `delta` added to it; `none` beyond the end. -/
def getAndAdd? (a : Paged Nat) (i delta : Nat) : Option (Nat × Paged Nat) :=
  (a.get? i).bind fun old => (a.set? i (old + delta)).map fun a => (old, a)

/-- The array with all entries equal to `value`. -/
def fill (a : Paged β) (value : β) : Paged β where
  pages := a.pages.map fun page => page.map fun _ => value
  size := a.size

/-- All entries in order. -/
def toList (a : Paged β) : List β :=
  a.pages.toList.flatMap Array.toList

/-- Whether the array has no entries. -/
def isEmpty (a : Paged β) : Bool :=
  a.size == 0

/-- The number of pages. -/
def pageCount (a : Paged β) : Nat :=
  a.pages.size

/-- A page by its number. -/
def page? (a : Paged β) (page : Nat) : Option (Array β) :=
  a.pages[page]?

/-- A place in a paged array. -/
structure Cursor where
  /-- The number of the page. -/
  page : Nat
  /-- The place on the page. -/
  place : Nat
deriving DecidableEq, Repr

namespace Cursor

/-- The cursor of entry `i`. -/
def ofIndex (i : Nat) : Cursor where
  page := pageIndex i
  place := indexInPage i

/-- The number of the entry at a cursor. -/
def index (c : Cursor) : Nat :=
  c.page * pageSize + c.place

end Cursor

/-- The entry at a cursor, and the cursor of the entry behind it, which begins the next page where this one
ends; `none` beyond the end. -/
def next? (a : Paged β) (c : Cursor) : Option (β × Cursor) :=
  (a.page? c.page).bind fun page =>
    page[c.place]?.map fun entry =>
      (entry, if c.place + 1 = page.size then ⟨c.page + 1, 0⟩ else ⟨c.page, c.place + 1⟩)

/-- The number of entries on all pages. -/
def stored (a : Paged β) : Nat :=
  a.pages.foldl (fun count page => count + page.size) 0

/-- A paged array under construction, which grows at its end. -/
structure Builder (β : Type) where
  /-- The full pages. -/
  full : Array (Array β)
  /-- The page that the next entry goes to. It holds at most `pageSize` entries. -/
  last : Array β

namespace Builder

/-- The builder without entries. -/
def empty : Builder β where
  full := #[]
  last := #[]

/-- The builder with one more entry. A full page is put away before the next one is begun. -/
def push (b : Builder β) (value : β) : Builder β :=
  if b.last.size < pageSize then { b with last := b.last.push value }
  else { full := b.full.push b.last, last := #[value] }

/-- The builder with the entries of a list behind its own. -/
def append (b : Builder β) (values : List β) : Builder β :=
  values.foldl push b

/-- The number of entries so far. -/
def size (b : Builder β) : Nat :=
  b.full.size * pageSize + b.last.size

/-- Whether nothing has been added. -/
def isEmpty (b : Builder β) : Bool :=
  b.size == 0

/-- The finished array. -/
def build (b : Builder β) : Paged β where
  pages := if b.last.isEmpty then b.full else b.full.push b.last
  size := b.size

end Builder

/-- The paged array with the entries of a list. -/
def ofList (values : List β) : Paged β :=
  (Builder.empty.append values).build

end Paged

end NetworkAnalysis
