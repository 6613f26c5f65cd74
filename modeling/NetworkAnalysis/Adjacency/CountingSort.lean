import NetworkAnalysis.Adjacency.Row
import NetworkAnalysis.Paged

/-!
# Turning rows around

What enters each node is found from the arcs by a counting sort. One pass counts the arcs that enter each
node, running sums of the counts give the place where the part of each node begins, and a second pass
drops every arc into the next free place of its target. Arcs with the same target keep their order.

The sort works on arrays of numbers, flat or paged: `Cells` is what it needs of them.
-/

namespace NetworkAnalysis.Adjacency

/-- Arrays of numbers with access by place. -/
class Cells (σ : Type) where
  /-- The array with a number of places that all hold zero. -/
  zeros : Nat → σ
  /-- The number at a place; zero beyond the end. -/
  get : σ → Nat → Nat
  /-- The array with the number at one place changed; beyond the end nothing changes. -/
  modify : σ → Nat → (Nat → Nat) → σ

instance : Cells (Array Nat) where
  zeros size := Array.replicate size 0
  get cells place := cells.getD place 0
  modify cells place f := cells.modify place f

instance : Cells (Paged Nat) where
  zeros size := Paged.replicate size 0
  get cells place := (cells.get? place).getD 0
  modify cells place f := cells.modify place f

namespace Cells

variable {σ : Type} [Cells σ]

/-- The array with another number at one place. -/
def set (cells : σ) (place value : Nat) : σ :=
  modify cells place fun _ => value

/-- The array with a number added at one place. -/
def add (cells : σ) (place delta : Nat) : σ :=
  modify cells place (· + delta)

end Cells

variable {n : Nat} {σ : Type} [Cells σ]

/-- Counts the arcs that enter each node, one place behind the number of the node. -/
def tally (arcs : List (Arc n)) : σ :=
  arcs.foldl (fun counts arc => Cells.add counts (arc.target + 1) 1) (Cells.zeros (n + 1))

/-- Adds to each number all numbers before it, up to place `size`. -/
def runningSums (size : Nat) (counts : σ) : σ :=
  (List.range size).foldl (fun sums place => Cells.add sums (place + 1) (Cells.get sums place)) counts

/-- The first `size` numbers of an array. -/
def firstCells (size : Nat) (cells : σ) : σ :=
  (List.range size).foldl (fun copy place => Cells.set copy place (Cells.get cells place))
    (Cells.zeros size)

/-- Arcs on their way to the places of their targets. -/
structure Scatter (σ : Type) where
  /-- The next free place of each node. -/
  cursors : σ
  /-- The sources that have been put into place. -/
  sources : σ
  /-- The relationship ids that have been put into place. -/
  ids : σ

/-- Puts an arc into the next free place of its target. -/
def Scatter.drop (s : Scatter σ) (arc : Arc n) : Scatter σ :=
  let ⟨cursors, sources, ids⟩ := s
  let place := Cells.get cursors arc.target
  { cursors := Cells.add cursors arc.target 1
    sources := Cells.set sources place arc.source
    ids := Cells.set ids place arc.id }

/-- What enters each node: the part of node `i` stands between the places `firsts[i]` and
`firsts[i + 1]`. -/
structure Incoming (σ : Type) where
  /-- Where the part of each node begins, and where the last one ends. -/
  firsts : σ
  /-- The sources of all parts. -/
  sources : σ
  /-- The relationship ids of all parts. -/
  ids : σ

/-- Sorts arcs by target. -/
def countingSort (arcs : List (Arc n)) : Incoming σ :=
  let firsts := runningSums n (tally arcs)
  let { sources, ids, .. } := arcs.foldl Scatter.drop
    { cursors := firstCells n firsts
      sources := Cells.zeros arcs.length
      ids := Cells.zeros arcs.length }
  { firsts, sources, ids }

end NetworkAnalysis.Adjacency
