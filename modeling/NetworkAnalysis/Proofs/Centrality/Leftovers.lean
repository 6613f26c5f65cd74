import NetworkAnalysis.Proofs.Centrality.Interruption

/-!
# What sources leave behind

A run never allocates arrays for a second source: it starts each source on those that the one before has left. As
long as the sources are finished, whatever their order and whoever watched them, the arrays that are left have been
changed at visited nodes only (`LeftBy.clean`). Clearing these is therefore the same as starting from fresh arrays,
and no later source can tell the difference, not even one that is stopped.
-/

namespace NetworkAnalysis.Centrality.Scratch

variable {n : Nat} {α : Type} [Scalar α] {neighbours : Fin n → List (Fin n)} {sources : List (Fin n)}
  {w w' : Scratch n α}

/-- The arrays that a row of sources can leave which were finished one after the other, the first one on fresh arrays
and each under a watch of its own. -/
inductive LeftBy (neighbours : Fin n → List (Fin n)) : List (Fin n) → Scratch n α → Prop where
  /-- No source has touched the arrays. -/
  | fresh : LeftBy neighbours [] fresh
  /-- One more source was finished. -/
  | source {sources : List (Fin n)} {w w' : Scratch n α} {watch : Watch} {polls polls' : Nat} {source : Fin n}
      (earlier : LeftBy neighbours sources w)
      (finished : w.singleSource neighbours watch polls source = (w', polls', true)) :
    LeftBy neighbours (sources ++ [source]) w'

/-- A source that is finished on clean arrays leaves what it leaves of fresh ones when it is not watched. -/
theorem Clean.eq_afterSource (clean : w.Clean) {watch : Watch} {polls polls' : Nat} {source : Fin n}
    (finished : w.singleSource neighbours watch polls source = (w', polls', true)) :
    w' = afterSource neighbours source := by
  have unwatched : w.singleSource neighbours watch polls source = w.singleSource neighbours .always polls source :=
    (watched_singleSource neighbours polls w source).eq_always (congrArg (fun result => result.2.2) finished)
  rw [finished, clean.singleSource_always] at unwatched
  exact congrArg Prod.fst unwatched

/-- Every finished source keeps the arrays clean. -/
theorem LeftBy.clean (left : LeftBy neighbours sources w) : w.Clean := by
  induction left with
  | fresh => exact clean_fresh
  | source _ finished ih =>
    rw [ih.eq_afterSource finished]
    exact clean_afterSource neighbours _

/-- Clean arrays make no difference to a source, whether it is stopped or not. -/
theorem Clean.singleSource_eq_fresh (clean : w.Clean) (watch : Watch) (polls : Nat) (source : Fin n) :
    w.singleSource neighbours watch polls source = fresh.singleSource neighbours watch polls source := by
  rw [singleSource_eq, singleSource_eq, clean.start]

/-- Sources can be finished in every order. -/
theorem exists_leftBy (neighbours : Fin n → List (Fin n)) (sources : List (Fin n)) :
    ∃ w : Scratch n α, LeftBy neighbours sources w := by
  induction sources using List.reverseRecOn with
  | nil => exact ⟨fresh, .fresh⟩
  | append_singleton sources source ih =>
    obtain ⟨w, left⟩ := ih
    exact ⟨_, left.source (left.clean.singleSource_always neighbours source 0)⟩

end Scratch

/-! ## Graphs -/

open Scratch

variable {α : Type} [Scalar α]

/-- Whichever sources were finished before, and in whatever order, a source does on the arrays that they have left what
it does on fresh ones: these arrays differ from fresh ones at visited nodes only, and clearing the visited nodes makes
them fresh. -/
theorem singleSource_reused {g : Graph α} {direction : Direction} {sources : List (Fin g.size)}
    {w : Scratch g.size α} (left : LeftBy (g.neighbours direction) sources w) :
    (∀ v : Fin g.size, v ∉ w.visited → w.paths[v] = Scalar.zero ∧ w.distance[v] = none
        ∧ w.dependency[v] = Scalar.zero ∧ w.predecessors[v] = [])
      ∧ w.reset = fresh
      ∧ ∀ (watch : Watch) (polls : Nat) (source : Fin g.size),
        w.singleSource (g.neighbours direction) watch polls source
          = fresh.singleSource (g.neighbours direction) watch polls source := by
  have clean := left.clean
  refine ⟨fun v outside => ?_, clean.reset, clean.singleSource_eq_fresh⟩
  exact ⟨clean.paths v outside, clean.distance v outside, clean.dependency v outside, clean.predecessors v outside⟩

/-- Among the junctions, the last source and the first one come before the others. -/
theorem singleSource_reused_junctions : ∃ (g : Graph Rat) (first last : Fin g.size) (w : Scratch g.size Rat),
    Loading.loadInto .huge Loading.fiveByDefault Loading.junctions = .ok g ∧ first ≠ last
      ∧ LeftBy (g.neighbours .both) [last, first, last] w ∧ w.reset = fresh
      ∧ ∀ (watch : Watch) (polls : Nat) (source : Fin g.size),
        w.singleSource (g.neighbours .both) watch polls source
          = fresh.singleSource (g.neighbours .both) watch polls source := by
  obtain ⟨g, loaded, labels⟩ := Loading.exists_load_junctions .huge
  have four : g.size = 4 := congrArg List.length labels
  let first : Fin g.size := ⟨0, by omega⟩
  let last : Fin g.size := ⟨3, by omega⟩
  obtain ⟨w, left⟩ := exists_leftBy (α := Rat) (g.neighbours .both) [last, first, last]
  exact ⟨g, first, last, w, loaded, by simp [first, last], left, (singleSource_reused left).2⟩

end NetworkAnalysis.Centrality
