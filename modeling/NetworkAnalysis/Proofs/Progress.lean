import NetworkAnalysis.Community.Detection
import NetworkAnalysis.Proofs.Centrality.Interruption
import NetworkAnalysis.Proofs.Component.Roots
import NetworkAnalysis.Proofs.LoadSuccess
import NetworkAnalysis.Proofs.ShortestPath.Branches

/-!
# Progress never goes back

Each algorithm counts something else: settled nodes, sources, discovered nodes, levels. What is announced are fractions
of counts that only grow and are bounded, which is an invariant of each run (`ShortestPath.Search.Announced`,
`Component.Search.Between.roots`, `Community.Climb.counted_run`), or can be read off the sources that are finished
(`Centrality.Finishes`).
-/

namespace NetworkAnalysis

open Scalar

/-! ## Shortest paths -/

namespace ShortestPath.Search

variable {n : Nat} {α : Type} [Scalar α] {s : Search n α}

/-- The settled nodes are counted, and the fractions announced are those that the counts were of all nodes. -/
structure Announced (s : Search n α) : Prop where
  tallied : s.order.size + s.settled.count false = n
  counted : Counted n s.order.size s.progress.toList

theorem announced_start (source : Fin n) : (start source : Search n α).Announced where
  tallied := by
    show 0 + (Table.replicate false : Table n Bool).count false = n
    rw [Table.count_replicate_self, Nat.zero_add]
  counted := .nil _ _

theorem Announced.settle (h : s.Announced) {node : Fin n} (waiting : s.settled[node] = false)
    (rest : Heap (Candidate n α)) : (s.settle node rest).Announced := by
  have counted := Table.count_set_add_one (x := true) waiting (by simp)
  have tallied := h.tallied
  constructor
  case tallied =>
    show (s.order.push node).size + (s.settled.set node true).count false = n
    rw [Array.size_push]
    omega
  case counted =>
    show Counted n (s.order.push node).size s.progress.toList
    rw [Array.size_push]
    exact h.counted.later (Nat.le_succ _)

theorem Announced.expand (h : s.Announced) (steps : Network n α) (node : Fin n) (cost : α) :
    (s.expand steps node cost).Announced := by
  unfold Search.expand announce
  split
  · exact ⟨h.tallied, h.counted.push (Nat.le_refl _)⟩
  · exact ⟨h.tallied, h.counted⟩

theorem Announced.run (h : s.Announced) (steps : Network n α) (target : Option (Fin n)) (watch : Watch) :
    (s.run steps target watch).1.Announced := by
  fun_induction Search.run steps target watch s with
  | case1 s popped => exact h
  | case2 s candidate rest popped stop => exact ⟨h.tallied, h.counted⟩
  | case3 s candidate rest popped more waiting ih => exact ih ⟨h.tallied, h.counted⟩
  | case4 s candidate rest popped more waiting settled reached =>
    exact h.settle (Bool.not_eq_true _ ▸ waiting) rest
  | case5 s candidate rest popped more waiting settled reached ih =>
    exact ih ((h.settle (Bool.not_eq_true _ ▸ waiting) rest).expand steps candidate.node candidate.cost)

end ShortestPath.Search

/-! ## Betweenness -/

namespace Centrality

variable {n : Nat} {α : Type} [Scalar α]

namespace Accumulation

/-- The run after a source that is finished, with what this leaves. -/
def after (a : Accumulation n α) (source : Fin n) (swept : Scratch n α × Nat × Bool) : Accumulation n α where
  scores := commit a.scores source swept.1
  scratch := swept.1
  polls := swept.2.1
  progress := a.progress.push (fractionAt source)

/-- The run goes on with the next source if it was not stopped in the first one. -/
theorem run_cons (neighbours : Fin n → List (Fin n)) (watch : Watch) (source : Fin n) (rest : List (Fin n))
    (a : Accumulation n α) :
    a.run neighbours watch (source :: rest)
      = let swept := a.scratch.singleSource neighbours watch a.polls source
        if swept.2.2 then run neighbours watch rest (a.after source swept)
        else ({ a with scratch := swept.1, polls := swept.2.1 }, false) := by
  obtain ⟨scores, scratch, polls, progress⟩ := a
  rw [run]
  dsimp only
  rcases scratch.singleSource neighbours watch polls source with ⟨swept, polls', _ | _⟩ <;> rfl

theorem watched_run (neighbours : Fin n → List (Fin n)) (sources : List (Fin n)) (a : Accumulation n α) :
    Watched (fun result => result.1.polls) Prod.snd a.polls fun watch => a.run neighbours watch sources := by
  induction sources generalizing a with
  | nil => exact .ends rfl rfl
  | cons source rest ih =>
    simp only [run_cons]
    refine (Scratch.watched_singleSource neighbours a.polls a.scratch source).bind
      (fun swept watch => if swept.2.2 then run neighbours watch rest (a.after source swept)
        else ({ a with scratch := swept.1, polls := swept.2.1 }, false)) ?_ ?_
    · intro swept finished
      simp only [finished, if_true]
      exact ih (a.after source swept)
    · intro swept stopped
      exact ⟨({ a with scratch := swept.1, polls := swept.2.1 }, false), rfl, rfl, fun _ => by simp [stopped]⟩

/-- The fractions announced are those of the first sources, as many as are finished. -/
theorem exists_progress (neighbours : Fin n → List (Fin n)) (watch : Watch) (sources : List (Fin n))
    (a : Accumulation n α) :
    ∃ done ≤ sources.length,
      (a.run neighbours watch sources).1.progress.toList = a.progress.toList ++ (sources.take done).map fractionAt := by
  induction sources generalizing a with
  | nil => exact ⟨0, Nat.le_refl _, (List.append_nil _).symm⟩
  | cons source rest ih =>
    rw [run_cons]
    dsimp only
    split
    · obtain ⟨done, within, announced⟩ := ih (a.after source _)
      refine ⟨done + 1, Nat.succ_le_succ within, announced.trans ?_⟩
      rw [after, Array.toList_push, List.append_assoc]
      rfl
    · exact ⟨0, Nat.zero_le _, (List.append_nil _).symm⟩

end Accumulation

/-- What a run under a watch has done that finishes a number of sources: all questions about these are answered with
yes, and not all about one more, and a fraction is announced for each of them. -/
structure Finishes (steps : Fin n → List (Relationship n)) (watch : Watch) (report : Report α (Scores n α))
    (finished : Nat) : Prop where
  within : finished ≤ n
  sources : ∀ count ≤ n, count ≤ finished ↔ ∀ poll < questionsBefore steps count, watch poll = true
  completed : report.completed = true ↔ finished = n
  progress : report.progress = ((List.finRange n).take finished).map Accumulation.fractionAt

theorem questionsBefore_mono (steps : Fin n → List (Relationship n)) {count count' : Nat} (le : count ≤ count') :
    questionsBefore steps count ≤ questionsBefore steps count' := by
  have earlier : ((List.finRange n).take count).Sublist ((List.finRange n).take count') :=
    (List.take_sublist_take_left le)
  exact (earlier.map _).sum_le_sum fun _ _ => Nat.zero_le _

theorem exists_finishes (steps : Fin n → List (Relationship n)) (halved : Bool) (watch : Watch) :
    ∃ finished, Finishes (α := α) steps watch (score (farEnds steps) halved watch) finished := by
  obtain ⟨budget, same, answers⟩ := (Accumulation.watched_run (farEnds steps) (List.finRange n)
    (Accumulation.start : Accumulation n α)).exists_budget watch (questionsBefore steps n)
  have budgeted : (score (farEnds steps) halved watch : Report α (Scores n α))
      = score (farEnds steps) halved (.budget budget) := by
    unfold score
    rw [same]
  obtain ⟨done, h⟩ := exists_wholeSources (α := α) steps halved budget
  obtain ⟨done', within, announced⟩ := Accumulation.exists_progress (farEnds steps) (.budget budget) (List.finRange n)
    (Accumulation.start : Accumulation n α)
  have progress : (score (farEnds steps) halved (.budget budget) : Report α (Scores n α)).progress
      = ((List.finRange n).take done').map Accumulation.fractionAt := announced
  have counted := h.progress
  rw [progress, List.length_map, List.length_take, Nat.min_eq_left within] at counted
  subst counted
  rw [budgeted]
  refine ⟨done', h.done_le, fun count le => ?_, h.completed, progress⟩
  rw [h.fits count le, answers _ (questionsBefore_mono steps le)]

end Centrality

/-! ## Communities -/

namespace Community.Climb

variable {n m : Nat} {α : Type} [Scalar α]

theorem counted_run (limits : Limits) (watch : Watch) (left : Nat) (c : Climb n m α)
    (within : c.levels + left ≤ limits.maxLevels) (counted : Counted limits.maxLevels c.levels c.progress.toList) :
    ∃ progress, Counted limits.maxLevels limits.maxLevels progress
      ∧ (c.run limits watch left).progress = progress ++ if (c.run limits watch left).completed then [one] else [] := by
  induction left generalizing m c with
  | zero => exact ⟨_, counted.later within, rfl⟩
  | succ left ih =>
    rw [run]
    dsimp only
    split
    · exact ⟨_, counted.later (by omega), rfl⟩
    · have counted' := counted.push (Nat.le_succ c.levels)
      split
      · exact ih (c.next limits _) (by show c.levels + 1 + left ≤ _; omega) counted'
      · exact ⟨_, counted'.later (by omega), rfl⟩

end Community.Climb

/-! ## All algorithms -/

section Algorithms

variable {α β : Type} [Scalar α]

/-- What is asked of the progress of a run over so many nodes: it never goes back, and in the end one is announced if
there are nodes. -/
structure Advances (nodes : Nat) (report : Report α β) : Prop extends NeverGoesBack report.progress where
  ends : report.completed = true → 0 < nodes → report.progress.getLast? = some one

variable [OrderedFractions α] {nodes whole reached : Nat} {report : Report α β} {progress : List α}

theorem Counted.advances (counted : Counted whole reached progress) (within : reached ≤ whole) (positive : 0 < whole)
    (word : whole < wordValues)
    (announced : report.progress = progress ++ if report.completed then [one] else []) : Advances nodes report where
  toNeverGoesBack := by
    rw [announced]
    exact counted.finish within positive word report.completed
  ends completed _ := by
    rw [announced, if_pos completed]
    exact List.getLast?_concat

theorem ShortestPath.advances_search {n : Nat} (word : n < wordValues) (steps : Network n α) (source : Fin n)
    (target : Option (Fin n)) (watch : Watch) : Advances n (search steps source target watch) := by
  obtain ⟨tallied, counted⟩ := (Search.announced_start source).run steps target watch
  exact counted.advances (by omega) source.pos word rfl

theorem Centrality.fractionAt_eq {n : Nat} (source : Fin n) :
    (Accumulation.fractionAt source : α) = fraction (if 1 < n then source.val else 1) (max 1 (n - 1)) := by
  unfold Accumulation.fractionAt
  split
  · rw [Nat.max_eq_right (by omega)]
  · rw [Nat.max_eq_left (by omega), OrderedFractions.fraction_self Nat.one_pos (by decide)]

theorem Centrality.Finishes.advances {n finished : Nat} {steps : Fin n → List (Relationship n)} {watch : Watch}
    {report : Report α (Scores n α)} (h : Finishes steps watch report finished) (word : n < wordValues) :
    Advances n report where
  toNeverGoesBack := by
    have counted : Counted (max 1 (n - 1)) (max 1 (n - 1)) report.progress := by
      refine ⟨((List.finRange n).take finished).map fun source => if 1 < n then source.val else 1, ?_, ?_, ?_⟩
      · rw [List.pairwise_map]
        refine ((List.pairwise_lt_finRange n).sublist (List.take_sublist _ _)).imp fun {source later} less => ?_
        split
        · exact less.le
        · exact le_rfl
      · intro part member
        obtain ⟨source, -, rfl⟩ := List.mem_map.1 member
        have := source.isLt
        split <;> omega
      · rw [h.progress, List.map_map]
        exact List.map_congr_left fun source _ => fractionAt_eq source
    exact counted.neverGoesBack le_rfl (by omega) (by unfold wordValues at word ⊢; omega)
  ends completed some := by
    obtain ⟨m, rfl⟩ := Nat.exists_eq_succ_of_ne_zero some.ne'
    rw [h.progress, h.completed.1 completed, List.take_of_length_le List.length_finRange.le, List.finRange_succ_last,
      List.map_append, List.map_singleton, List.getLast?_concat, fractionAt_eq]
    have last : (if 1 < m + 1 then (Fin.last m).val else 1) = max 1 (m + 1 - 1) := by
      rw [Fin.val_last]
      split <;> omega
    rw [last, OrderedFractions.fraction_self (by omega) (by unfold wordValues at word ⊢; omega)]

theorem countP_finRange {n : Nat} (p : Fin n → Prop) [DecidablePred p] :
    (List.finRange n).countP (fun v => p v) = {v | p v}.ncard := by
  have listed : {v | p v} = (((List.finRange n).filter fun v => p v).toFinset : Set (Fin n)) := by
    ext v
    simp
  rw [listed, Set.ncard_coe_finset, List.toFinset_card_of_nodup ((List.nodup_finRange n).filter _),
    List.countP_eq_length_filter]

theorem Component.advances_search {n : Nat} (word : n < wordValues) (neighbours : Fin n → List (Fin n))
    (watch : Watch) :
    let report : Report α (Partition n) := search neighbours watch
    Advances n report
      ∧ report.progress.length
        = {v | IsRoot neighbours v ∧ report.value.components[v] ≠ none}.ncard + if report.completed then 1 else 0 := by
  classical
  have first : Counted n (Search.start : Search n).counter (#[] : Array α).toList := .nil _ _
  have all : [] ++ List.finRange n = List.finRange n := rfl
  obtain ⟨counted, announced⟩ := (Search.between_start neighbours).roots all watch first
  dsimp only
  constructor
  · rcases Nat.eq_zero_or_pos n with rfl | positive
    · exact (Counted.nil 1 1).advances le_rfl Nat.one_pos (by decide) rfl
    · exact counted.advances le_rfl positive word rfl
  · rw [countP_finRange, Array.size_empty, Nat.zero_add] at announced
    unfold search
    dsimp only
    rw [List.length_append, Array.length_toList, announced]
    congr 1
    split <;> rfl

theorem Community.advances_detectIn {n : Nat} (level : Level n α) (limits : Limits)
    (word : limits.maxLevels < wordValues) (watch : Watch) : Advances n (detectIn level limits watch) := by
  by_cases positive : 0 < limits.maxLevels
  · obtain ⟨progress, counted, announced⟩ :=
      Climb.counted_run limits watch limits.maxLevels (Climb.start level) (Nat.zero_add _).le (.nil _ _)
    exact counted.advances le_rfl positive word announced
  · have flat : limits.maxLevels = 0 := by omega
    have once : (detectIn level limits watch).progress
        = [] ++ if (detectIn level limits watch).completed then [one] else [] := by
      unfold detectIn
      rw [flat]
      rfl
    exact (Counted.nil 1 1).advances le_rfl Nat.one_pos (by decide) once

omit [OrderedFractions α] in
theorem Graph.Loaded.size_lt_wordValues {g : Graph α} (loaded : g.Loaded) : g.size < wordValues := by
  obtain ⟨storage, settings, source, loaded⟩ := loaded
  refine (Loading.fits_of_loadInto loaded).1.trans_lt ?_
  cases storage <;> decide

/-- Whatever the graph, the settings and the watch are, the fractions that a run announces never go back and stay
between zero and one, none is divided by zero, and the last one of a run that finishes is one if there are nodes.
Betweenness announces one fraction for each source that is finished, and the component search one for each root that is
finished and a last one in the end. -/
theorem progress_never_goes_back {g : Graph α} (loaded : g.Loaded) (watch : Watch) :
    (∀ query : ShortestPath.Query g.size, Advances g.size (ShortestPath.compute g query watch))
      ∧ (∀ direction,
        let report := Centrality.betweenness g direction watch
        Advances g.size report ∧ ∃ finished,
          Centrality.Finishes (fun node => g.relationships node direction) watch report finished
            ∧ report.progress.length = finished)
      ∧ (let report := Component.compute g watch
        Advances g.size report ∧ report.progress.length
          = {v | Component.IsRoot (g.neighbours .outgoing) v ∧ report.value.components[v] ≠ none}.ncard
            + if report.completed then 1 else 0)
      ∧ ∀ settings workers, settings.maxLevels < wordValues →
        Advances g.size (Community.detect g settings workers watch) := by
  have word := loaded.size_lt_wordValues
  refine ⟨fun query => ShortestPath.advances_search word _ _ _ _, fun direction => ?_,
    Component.advances_search word _ watch, fun settings workers few => Community.advances_detectIn _ _ few watch⟩
  obtain ⟨finished, h⟩ := Centrality.exists_finishes (α := α) (fun node => g.relationships node direction)
    (direction == .both) watch
  refine ⟨h.advances word, finished, h, ?_⟩
  have announced := congrArg List.length h.progress
  rwa [List.length_map, List.length_take, List.length_finRange, Nat.min_eq_left h.within] at announced

end Algorithms

/-- Doubles announce their progress in the same way, even along weights that are not numbers. -/
theorem progress_never_goes_back_rough : ∃ g : Graph Float, g.Loaded
    ∧ (∀ query : ShortestPath.Query g.size, Advances g.size (ShortestPath.compute g query (.budget 2)))
    ∧ (10 < wordValues ∧ Advances g.size
      (Community.detect g { maxLevels := 10, maxIterations := 10, weighted := false } none (.budget 2))) := by
  obtain ⟨g, loaded⟩ := ShortestPath.exists_load_rough
  have isLoaded : g.Loaded := ⟨_, _, _, loaded⟩
  obtain ⟨paths, -, -, communities⟩ := progress_never_goes_back isLoaded (.budget 2)
  exact ⟨g, isLoaded, paths, by decide, communities _ none (by decide)⟩

end NetworkAnalysis
