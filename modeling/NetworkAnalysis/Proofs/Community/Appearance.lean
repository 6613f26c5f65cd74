import NetworkAnalysis.Proofs.Community.Levels
import NetworkAnalysis.Proofs.Community.Shrinking

/-!
# Communities are numbered by first appearance

Numbers are in order of appearance if the first node has number zero and every later node a number that is at most
one more than that of some node before it (`Appearing`). Then whatever is below a number appears no later than the
number itself, and this is why the order survives the levels of a search: a level numbers the communities of its own
nodes by their first appearance, and these nodes have themselves first appeared in order among the base nodes.
-/

namespace NetworkAnalysis.Community

variable {n m : Nat}

/-- Numbers that are given out in the order in which they first appear. -/
structure Appearing (number : Fin n → Nat) : Prop where
  first : ∀ u : Fin n, u.val = 0 → number u = 0
  next : ∀ u : Fin n, 0 < u.val → ∃ v < u, number u ≤ number v + 1

namespace Appearing

theorem val : Appearing (Fin.val : Fin n → Nat) := by
  constructor
  case first => exact fun _ zero => zero
  case next =>
    intro u positive
    have below : u.val - 1 < n := by omega
    have before : (⟨u.val - 1, below⟩ : Fin n) < u := by
      show u.val - 1 < u.val
      omega
    have step : u.val ≤ u.val - 1 + 1 := by omega
    exact ⟨⟨u.val - 1, below⟩, before, step⟩

/-- Whatever is below a number appears no later than the number. -/
theorem exists_le {number : Fin n → Nat} (h : Appearing number) (u : Fin n) {k : Nat} (below : k ≤ number u) :
    ∃ v ≤ u, number v = k := by
  -- By induction on the node: where the number itself is not the one, a node before has a number that is no smaller.
  induction u using WellFoundedLT.induction with
  | ind u ih =>
    by_cases here : number u = k
    · exact ⟨u, le_refl u, here⟩
    · have less : k < number u := by omega
      have positive : 0 < u.val := by
        by_contra zero
        have := h.first u (by omega)
        omega
      obtain ⟨v, before, close⟩ := h.next u positive
      obtain ⟨w, earlier, found⟩ := ih v before (by omega)
      exact ⟨w, earlier.trans before.le, found⟩

/-- Numbers of numbers: what appears in order among places is in order among all that the places were given to. -/
theorem comp {place : Fin n → Fin m} (outer : Appearing fun u => (place u).val) {number : Fin m → Nat}
    (inner : Appearing number) : Appearing fun u => number (place u) := by
  constructor
  case first =>
    intro u zero
    exact inner.first _ (outer.first u zero)
  case next =>
    intro u positive
    rcases Nat.eq_zero_or_pos (place u).val with zero | later
    · have numbered : number (place u) = 0 := inner.first _ zero
      have size : 0 < n := by omega
      refine ⟨⟨0, size⟩, positive, ?_⟩
      omega
    · obtain ⟨d, less, close⟩ := inner.next (place u) later
      have below : d.val ≤ (place u).val := le_of_lt less
      obtain ⟨v, before, here⟩ := outer.exists_le u below
      have same : place v = d := Fin.ext here
      have other : v ≠ u := by
        rintro rfl
        rw [same] at less
        exact lt_irrefl d less
      refine ⟨v, lt_of_le_of_ne before other, ?_⟩
      rw [same]
      exact close

/-- A number that has not appeared before counts those that have. -/
theorem eq_card {number : Fin n → Nat} (h : Appearing number) {u : Fin n} (new : ∀ v < u, number v ≠ number u) :
    number u = ((Finset.univ.filter (· < u)).image number).card := by
  have appeared : (Finset.univ.filter (· < u)).image number = Finset.range (number u) := by
    ext k
    simp only [Finset.mem_image, Finset.mem_filter, Finset.mem_univ, true_and, Finset.mem_range]
    constructor
    · rintro ⟨v, before, rfl⟩
      by_contra above
      obtain ⟨w, earlier, again⟩ := h.exists_le v (Nat.le_of_not_lt above)
      exact new w (lt_of_le_of_lt earlier before) again
    · intro below
      obtain ⟨v, before, here⟩ := h.exists_le u below.le
      have other : v ≠ u := by
        rintro rfl
        omega
      exact ⟨v, lt_of_le_of_ne before other, here⟩
  rw [appeared, Finset.card_range]

end Appearing

/-! ## One level -/

namespace Relabelling

/-- Numbers that were given stay. -/
theorem labels_foldl_note {r : Relabelling n} {c : Fin n} {label : Nat} (given : r.labels[c] = some label)
    (communities : List (Fin n)) : (communities.foldl note r).labels[c] = some label := by
  induction communities generalizing r with
  | nil => exact given
  | cons d rest ih =>
    apply ih
    unfold note
    split
    · next unnumbered =>
      have other : d ≠ c := by
        rintro rfl
        rw [unnumbered] at given
        cases given
      exact (Table.getElem_set_of_ne _ _ other).trans given
    · exact given

theorem labels_note_self (r : Relabelling n) (c : Fin n) :
    (r.note c).labels[c] = some ((r.labels[c]).getD r.count) := by
  unfold note
  rcases known : r.labels[c] with _ | label
  · rw [if_pos rfl]
    exact Table.getElem_set_self _ _ _
  · rw [if_neg (Option.some_ne_none label)]
    exact known

/-- A community has the number that it had before its place in the list, and otherwise the next one. -/
theorem labels_ofList {communities : List (Fin n)} {i : Nat} (inside : i < communities.length) :
    let before := ofList (communities.take i)
    (ofList communities).labels[communities[i]] = some ((before.labels[communities[i]]).getD before.count) := by
  have cut : communities = communities.take i ++ communities[i] :: communities.drop (i + 1) := by
    rw [← List.drop_eq_getElem_cons inside, List.take_append_drop]
  have steps : ofList communities
      = (communities.drop (i + 1)).foldl note ((ofList (communities.take i)).note communities[i]) := by
    conv_lhs => rw [cut, ofList, List.foldl_append, List.foldl_cons]
    rfl
  dsimp only
  rw [steps]
  apply labels_foldl_note
  exact labels_note_self _ _

end Relabelling

/-- The communities of a level are numbered by the first appearance of their nodes. -/
theorem appearing_renumber (community : Table n (Fin n)) :
    Appearing fun u : Fin n => ((renumber community).community[u]).val := by
  have listed : ∀ (u : Fin n) (inside : u.val < community.toList.length), community.toList[u.val] = community[u] :=
    fun u inside => Table.getElem_toList community inside
  have length : community.toList.length = n := Table.length_toList community
  have number : ∀ u : Fin n, (Relabelling.ofList community.toList).labels[community[u]]
      = some ((renumber community).community[u]).val := by
    intro u
    unfold renumber
    rw [Table.getElem_ofFn]
    exact (Option.some_get _).symm
  let before := fun u : Fin n => Relabelling.ofList (community.toList.take u.val)
  have value : ∀ u : Fin n, ((renumber community).community[u]).val
      = ((before u).labels[community[u]]).getD (before u).count := by
    intro u
    have inside : u.val < community.toList.length := by rw [length]; exact u.isLt
    have given := Relabelling.labels_ofList inside
    simp only [listed] at given
    exact Option.some.inj ((number u).symm.trans given)
  -- Only communities of earlier nodes have numbers before a node, and they keep them.
  have earlier : ∀ (u : Fin n) (c : Fin n) (label : Nat), (before u).labels[c] = some label →
      ∃ v < u, ((renumber community).community[v]).val = label := by
    intro u c label given
    have member : c ∈ community.toList.take u.val := by
      apply Relabelling.mem_of_labels_ofList
      rw [given]
      exact Option.some_ne_none label
    obtain ⟨i, bound, rfl⟩ := List.mem_take_iff_getElem.1 member
    have below : i < n := by omega
    have kept := Relabelling.labels_foldl_note given (community.toList.drop u.val)
    have whole : (community.toList.drop u.val).foldl Relabelling.note (before u)
        = Relabelling.ofList community.toList := by
      show (community.toList.drop u.val).foldl _ ((community.toList.take u.val).foldl _ _) = _
      rw [← List.foldl_append, List.take_append_drop]
      rfl
    have here := number ⟨i, below⟩
    rw [whole, listed ⟨i, below⟩, here] at kept
    have less : (⟨i, below⟩ : Fin n) < u := by
      show i < u.val
      omega
    exact ⟨⟨i, below⟩, less, Option.some.inj kept⟩
  constructor
  case first =>
    intro u zero
    have nothing : before u = Relabelling.empty := by
      show Relabelling.ofList (community.toList.take u.val) = _
      rw [zero]
      rfl
    rw [value, nothing]
    simp [Relabelling.empty]
  case next =>
    intro u positive
    rw [value]
    rcases known : (before u).labels[community[u]] with _ | label
    · have size : 0 < n := by omega
      have labelled : ((before u).labels[community[(⟨0, size⟩ : Fin n)]]).isSome := by
        apply Relabelling.isSome_foldl_note
        left
        rw [List.mem_take_iff_getElem]
        exact ⟨0, by omega, listed ⟨0, size⟩ (by omega)⟩
      obtain ⟨label, given⟩ := Option.isSome_iff_exists.1 labelled
      have counted : 0 < (before u).count := Nat.lt_of_le_of_lt (Nat.zero_le label) ((before u).label_lt _ _ given)
      obtain ⟨c, last⟩ := (Relabelling.faithful_ofList (community.toList.take u.val)).onto
        ((before u).count - 1) (Nat.sub_lt counted Nat.one_pos)
      obtain ⟨v, less, here⟩ := earlier u c _ last
      refine ⟨v, less, ?_⟩
      rw [here, Option.getD_none]
      omega
    · obtain ⟨v, less, here⟩ := earlier u _ label known
      refine ⟨v, less, ?_⟩
      rw [here, Option.getD_some]
      omega

/-! ## Searches -/

variable {α : Type} [Scalar α]

namespace Climb

/-- The nodes of the level have first appeared in order among the base nodes. -/
structure Appeared (c : Climb n m α) : Prop where
  onto : c.Onto
  order : Appearing fun u : Fin n => (c.place[u]).val

theorem appeared_start (level : Level n α) : (start level).Appeared := by
  have place : ∀ u : Fin n, (start level).place[u] = u := fun u => Table.getElem_ofFn id u
  refine ⟨onto_start level, ?_⟩
  simp only [place]
  exact .val

theorem Appeared.next {c : Climb n m α} (h : c.Appeared) (limits : Limits) (run : LevelRun m α) :
    (c.next limits run).Appeared := by
  have place : ∀ u : Fin n, (c.next limits run).place[u] = (renumber run.state.community).community[c.place[u]] :=
    fun u => Table.getElem_map _ c.place u
  refine ⟨h.onto.next limits run, ?_⟩
  simp only [place]
  exact h.order.comp (appearing_renumber run.state.community)

end Climb

/-- A search numbers the communities that it finds by their first appearance among the nodes, however many levels it
has climbed. The numbers in use are those below the count, and the count is how many different ones there are. -/
theorem detect_appearing (g : Graph α) (settings : CommunitySettings) (workers : Option Nat) (watch : Watch) :
    let found := (detect g settings workers watch).value
    let number := fun u : Fin g.size => found.assignment[u]
    (∀ u : Fin g.size, u.val = 0 → number u = 0)
      ∧ (∀ u : Fin g.size, 0 < u.val → ∃ v < u, number u ≤ number v + 1)
      ∧ (∀ u : Fin g.size, (∀ v < u, number v ≠ number u) →
        number u = ((Finset.univ.filter (· < u)).image number).card)
      ∧ (∀ c : Nat, c < found.count ↔ ∃ u : Fin g.size, number u = c)
      ∧ found.count = (Finset.univ.image number).card := by
  let limits : Limits := ⟨settings.maxIterations, settings.maxLevels, workers⟩
  obtain ⟨k, last, completed, appeared, run⟩ := Climb.run_induct limits watch
    (P := fun c => c.Appeared) (fun _ _ h => ⟨h.onto, h.order⟩) (fun _ run h => h.next limits run)
    settings.maxLevels (.start (.ofGraph g settings.weighted)) (Climb.appeared_start _)
  have found : (detect g settings workers watch).value = last.found :=
    congrArg (fun report => report.value) run
  have number : ∀ u : Fin g.size, last.found.assignment[u] = (last.place[u]).val :=
    fun u => Table.getElem_map Fin.val last.place u
  have counted : last.found.count = k := count_of_onto appeared.onto
  have used : ∀ c : Nat, c < k ↔ ∃ u : Fin g.size, (last.place[u]).val = c := by
    intro c
    constructor
    · intro below
      obtain ⟨u, here⟩ := appeared.onto ⟨c, below⟩
      exact ⟨u, congrArg Fin.val here⟩
    · rintro ⟨u, rfl⟩
      exact (last.place[u]).isLt
  dsimp only
  rw [found, counted]
  simp only [number]
  refine ⟨appeared.order.first, appeared.order.next, fun u new => appeared.order.eq_card new, used, ?_⟩
  have all : Finset.univ.image (fun u : Fin g.size => (last.place[u]).val) = Finset.range k := by
    ext c
    simp only [Finset.mem_image, Finset.mem_univ, true_and, Finset.mem_range]
    exact (used c).symm
  rw [all, Finset.card_range]

end NetworkAnalysis.Community
