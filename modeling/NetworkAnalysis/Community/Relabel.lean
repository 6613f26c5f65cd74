import NetworkAnalysis.Table

/-!
# Renumbering communities

Communities are renumbered in the order in which they first appear among the nodes, so that the numbers
in use become `0, 1, …` without gaps. The number of communities is part of the type of the result.
-/

namespace NetworkAnalysis.Community

variable {n : Nat}

/-- New numbers for some of `n` communities. -/
structure Relabelling (n : Nat) where
  /-- The new number of each community that has one. -/
  labels : Table n (Option Nat)
  /-- How many communities have a new number. -/
  count : Nat
  /-- New numbers are below the count. -/
  label_lt : ∀ (c : Fin n) (label : Nat), labels[c] = some label → label < count

namespace Relabelling

/-- No new numbers. -/
def empty : Relabelling n where
  labels := .replicate none
  count := 0
  label_lt := by
    intro c label h
    simp at h

/-- Gives a community the next number, unless it has one. -/
def note (r : Relabelling n) (c : Fin n) : Relabelling n :=
  if r.labels[c] = none then
    { labels := r.labels.set c (some r.count)
      count := r.count + 1
      label_lt := by
        intro d label h
        have bound := r.label_lt d label
        rw [Table.getElem_set] at h
        split at h
        · simp only [Option.some.injEq] at h
          omega
        · have := bound h
          omega }
  else
    r

/-- The new numbers of the communities of a list. -/
def ofList (communities : List (Fin n)) : Relabelling n :=
  communities.foldl note empty

theorem isSome_note_self (r : Relabelling n) (c : Fin n) : ((r.note c).labels[c]).isSome := by
  unfold note
  split
  · simp
  · next h => exact Option.isSome_iff_ne_none.2 h

theorem isSome_note (r : Relabelling n) (c d : Fin n) (h : (r.labels[d]).isSome) :
    ((r.note c).labels[d]).isSome := by
  unfold note
  split
  · rw [Table.getElem_set]
    split
    · rfl
    · exact h
  · exact h

theorem isSome_foldl_note (communities : List (Fin n)) (r : Relabelling n) (d : Fin n)
    (h : d ∈ communities ∨ (r.labels[d]).isSome) :
    ((communities.foldl note r).labels[d]).isSome := by
  induction communities generalizing r with
  | nil => simpa using h
  | cons c rest ih =>
    apply ih
    rcases h with h | h
    · rcases List.mem_cons.1 h with rfl | h
      · exact .inr (isSome_note_self r d)
      · exact .inl h
    · exact .inr (isSome_note r c d h)

/-- The new number of a community that has one. -/
def label (r : Relabelling n) (c : Fin n) (h : (r.labels[c]).isSome) : Fin r.count :=
  ⟨(r.labels[c]).get h, r.label_lt c _ (Option.some_get h).symm⟩

end Relabelling

/-- An assignment of `count` communities to `n` nodes. -/
structure Assignment (n : Nat) where
  /-- The number of communities. -/
  count : Nat
  /-- The community of each node. -/
  community : Table n (Fin count)

/-- How many communities there are if some of their numbers may be free: one more than the largest number
in use. -/
def countCommunities (communities : List Nat) : Nat :=
  (communities.map (· + 1)).max?.getD 0

theorem lt_countCommunities {communities : List Nat} {c : Nat} (h : c ∈ communities) :
    c < countCommunities communities :=
  List.le_max?_getD_of_mem (List.mem_map_of_mem h)

/-- The assignment with communities numbered by first appearance. -/
def renumber (community : Table n (Fin n)) : Assignment n :=
  let relabelling := Relabelling.ofList community.toList
  { count := relabelling.count
    community := .ofFn fun node =>
      relabelling.label community[node]
        (Relabelling.isSome_foldl_note _ _ _ (.inl (Table.getElem_mem_toList community node))) }

end NetworkAnalysis.Community
