import Mathlib.Data.Fintype.Card
import NetworkAnalysis.Community.Relabel
import NetworkAnalysis.Proofs.Rows

/-!
# Renumbering keeps communities apart

New numbers are given out one after the other, so that two communities never get the same one and none is left
out (`Faithful`). Nodes share a community afterwards exactly if they did before, and there are no more communities
than nodes.
-/

namespace NetworkAnalysis.Community

variable {n m : Nat}

namespace Relabelling

/-- Different communities have different numbers, and every number is given to one. -/
structure Faithful (r : Relabelling n) : Prop where
  injective : ∀ (c d : Fin n) (label : Nat), r.labels[c] = some label → r.labels[d] = some label → c = d
  onto : ∀ label < r.count, ∃ c : Fin n, r.labels[c] = some label

theorem faithful_empty : (empty : Relabelling n).Faithful := by
  constructor
  case injective =>
    intro c d label given
    simp [empty] at given
  case onto =>
    intro label below
    exact absurd below (Nat.not_lt_zero label)

/-- A new number is not in use, and the next one is the first that is free. -/
theorem Faithful.note {r : Relabelling n} (h : r.Faithful) (c : Fin n) : (r.note c).Faithful := by
  unfold Relabelling.note
  split
  · next unnumbered =>
    have fresh : ∀ d : Fin n, r.labels[d] ≠ some r.count := by
      intro d given
      exact absurd (r.label_lt d _ given) (Nat.lt_irrefl _)
    constructor
    case injective =>
      intro d e label first second
      rw [Table.getElem_set] at first second
      by_cases here : c = d
      · by_cases there : c = e
        · exact here.symm.trans there
        · rw [if_pos here] at first
          rw [if_neg there, ← first] at second
          exact absurd second (fresh e)
      · by_cases there : c = e
        · rw [if_pos there] at second
          rw [if_neg here, ← second] at first
          exact absurd first (fresh d)
        · rw [if_neg here] at first
          rw [if_neg there] at second
          exact h.injective d e label first second
    case onto =>
      intro label below
      rcases Nat.lt_succ_iff_lt_or_eq.1 below with earlier | rfl
      · obtain ⟨d, given⟩ := h.onto label earlier
        have other : c ≠ d := by
          rintro rfl
          rw [unnumbered] at given
          cases given
        exact ⟨d, by rw [Table.getElem_set, if_neg other, given]⟩
      · exact ⟨c, Table.getElem_set_self _ _ _⟩
  · exact h

theorem faithful_ofList (communities : List (Fin n)) : (ofList communities).Faithful :=
  List.foldlRecOn communities _ faithful_empty fun _ h c _ => h.note c

/-- Only the communities of the list get numbers. -/
theorem mem_of_labels_ofList {communities : List (Fin n)} {c : Fin n}
    (numbered : (ofList communities).labels[c] ≠ none) : c ∈ communities := by
  have noted : ∀ (communities : List (Fin n)) (r : Relabelling n),
      (communities.foldl Relabelling.note r).labels[c] ≠ none → c ∈ communities ∨ r.labels[c] ≠ none := by
    intro communities
    induction communities with
    | nil => exact fun _ given => .inr given
    | cons d rest ih =>
      intro r given
      rcases ih (r.note d) given with later | here
      · exact .inl (List.mem_cons_of_mem _ later)
      · by_cases same : d = c
        · exact .inl (same ▸ List.mem_cons_self)
        · refine .inr ?_
          unfold Relabelling.note at here
          split at here
          · rwa [Table.getElem_set_of_ne _ _ same] at here
          · exact here
  exact (noted communities empty numbered).resolve_right fun given => given (Table.getElem_replicate _ _)

theorem label_inj {r : Relabelling n} (h : r.Faithful) {c d : Fin n} (hc : (r.labels[c]).isSome)
    (hd : (r.labels[d]).isSome) : r.label c hc = r.label d hd ↔ c = d := by
  constructor
  · intro same
    have numbers : (r.labels[c]).get hc = (r.labels[d]).get hd := congrArg Fin.val same
    refine h.injective c d _ (Option.some_get hc).symm ?_
    rw [numbers]
    exact (Option.some_get hd).symm
  · rintro rfl
    rfl

/-- Nodes in order get their own numbers. -/
theorem ofList_take_finRange {i : Nat} (bound : i ≤ n) :
    let r := ofList ((List.finRange n).take i)
    r.count = i ∧ ∀ c : Fin n, r.labels[c] = if c.val < i then some c.val else none := by
  induction i with
  | zero => exact ⟨rfl, fun c => Table.getElem_replicate _ c⟩
  | succ i ih =>
    obtain ⟨count, labels⟩ := ih (Nat.le_of_succ_le bound)
    have inside : i < (List.finRange n).length := by rwa [List.length_finRange]
    have cut : (List.finRange n).take (i + 1) = (List.finRange n).take i ++ [⟨i, bound⟩] := by
      rw [List.take_succ_eq_append_getElem inside, List.getElem_finRange]
      rfl
    have last : (ofList ((List.finRange n).take i)).labels[(⟨i, bound⟩ : Fin n)] = none := by
      rw [labels, if_neg (Nat.lt_irrefl i)]
    have step : ofList ((List.finRange n).take (i + 1))
        = (ofList ((List.finRange n).take i)).note ⟨i, bound⟩ := by
      rw [ofList, cut, List.foldl_append]
      rfl
    dsimp only
    rw [step, note]
    split
    · refine ⟨congrArg (· + 1) count, fun c => ?_⟩
      show (Table.set _ _ _)[c] = _
      rw [Table.getElem_set, count, labels]
      by_cases here : c.val = i
      · rw [if_pos (Fin.ext here.symm), if_pos (Nat.lt_succ_of_le here.le), here]
      · rw [if_neg fun there => here (congrArg Fin.val there).symm]
        have same : c.val < i ↔ c.val < i + 1 := by omega
        simp only [same]
    · next numbered => exact absurd last numbered

end Relabelling

/-- Nodes share a community after the renumbering exactly if they did before. -/
theorem renumber_eq_iff (community : Table n (Fin n)) (u v : Fin n) :
    (renumber community).community[u] = (renumber community).community[v]
      ↔ community[u] = community[v] := by
  unfold renumber
  simp only [Table.getElem_ofFn]
  exact Relabelling.label_inj (Relabelling.faithful_ofList _) _ _

/-- Every community has a node after the renumbering. -/
theorem renumber_onto (community : Table n (Fin n)) (label : Fin (renumber community).count) :
    ∃ u : Fin n, (renumber community).community[u] = label := by
  obtain ⟨c, given⟩ := (Relabelling.faithful_ofList community.toList).onto label.val label.isLt
  have used : c ∈ community.toList := Relabelling.mem_of_labels_ofList (by rw [given]; exact Option.some_ne_none _)
  obtain ⟨u, here⟩ := Table.exists_of_mem_toList used
  refine ⟨u, ?_⟩
  unfold renumber
  rw [Table.getElem_ofFn]
  refine Fin.ext ?_
  simp only [Relabelling.label, here, given, Option.get_some]

/-- If a community has no nodes, there are fewer communities than nodes after the renumbering. -/
theorem count_renumber_lt {community : Table n (Fin n)} {c : Fin n} (unused : ∀ u : Fin n, community[u] ≠ c) :
    (renumber community).count < n := by
  choose member holds using renumber_onto community
  have injective : Function.Injective fun label => community[member label] := by
    intro l k same
    rw [← holds l, ← holds k]
    exact (renumber_eq_iff community _ _).2 same
  have fewer := Fintype.card_lt_of_injective_of_notMem (b := c) _ injective (by
    rintro ⟨label, here⟩
    exact unused (member label) here)
  simpa using fewer

theorem count_renumber_le (community : Table n (Fin n)) : (renumber community).count ≤ n := by
  have h := Relabelling.faithful_ofList community.toList
  choose holder numbered using h.onto
  have injective : Function.Injective fun label : Fin (renumber community).count =>
      holder label.val label.isLt := by
    intro l k same
    replace same : holder l.val l.isLt = holder k.val k.isLt := same
    have first := numbered l.val l.isLt
    rw [same, numbered k.val k.isLt] at first
    exact Fin.ext (Option.some.inj first).symm
  simpa using Fintype.card_le_of_injective _ injective

/-- Single nodes keep their numbers. -/
theorem renumber_ofFn_id (u : Fin n) : ((renumber (.ofFn id : Table n (Fin n))).community[u]).val = u.val := by
  have nodes : (Table.ofFn id : Table n (Fin n)).toList = (List.finRange n).take n := by
    rw [List.take_of_length_le (by rw [List.length_finRange])]
    refine List.ext_getElem (by simp) fun i inside _ => ?_
    rw [Table.getElem_toList, Table.getElem_ofFn, List.getElem_finRange]
    rfl
  have numbered := (Relabelling.ofList_take_finRange (Nat.le_refl n)).2 u
  rw [if_pos u.isLt, ← nodes] at numbered
  unfold renumber
  rw [Table.getElem_ofFn]
  simp only [Relabelling.label, Table.getElem_ofFn, id_eq, numbered, Option.get_some]

/-! ## Counts -/

/-- The count of communities that are numbered without gaps. -/
theorem countCommunities_eq {communities : List Nat} {count : Nat} (below : ∀ c ∈ communities, c < count)
    (used : ∀ c < count, c ∈ communities) : countCommunities communities = count := by
  refine Nat.le_antisymm ?_ ?_
  · unfold countCommunities
    rcases largest : (communities.map (· + 1)).max? with _ | most
    · exact Nat.zero_le count
    · obtain ⟨member, -⟩ := List.max?_eq_some_iff.1 largest
      obtain ⟨c, listed, rfl⟩ := List.mem_map.1 member
      exact below c listed
  · refine Nat.le_of_not_lt fun less => ?_
    exact Nat.lt_irrefl _ (lt_countCommunities (used _ less))

theorem count_of_onto {place : Table n (Fin m)} (onto : ∀ d : Fin m, ∃ u : Fin n, place[u] = d) :
    countCommunities (place.map Fin.val).toList = m := by
  refine countCommunities_eq (fun c member => ?_) fun c below => ?_
  · obtain ⟨u, rfl⟩ := Table.exists_of_mem_toList member
    rw [Table.getElem_map]
    exact (place[u]).isLt
  · obtain ⟨u, here⟩ := onto ⟨c, below⟩
    have listed := Table.getElem_mem_toList (place.map Fin.val) u
    rwa [Table.getElem_map, here] at listed

end NetworkAnalysis.Community
