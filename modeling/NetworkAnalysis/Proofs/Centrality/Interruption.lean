import NetworkAnalysis.Proofs.Centrality.Betweenness
import NetworkAnalysis.Proofs.Centrality.Reuse
import NetworkAnalysis.Proofs.Watched

/-!
# Betweenness runs that end early

A source asks twice for every node that it reaches, once when the node is dequeued and once when it is swept. A run
under a budget finishes the sources for which the budget suffices, and adds to the scores what these contribute; of
the source at which it is stopped nothing is added, since the scores change only when a source is done.
-/

namespace NetworkAnalysis.Centrality

variable {n : Nat} {α : Type} [Scalar α]

/-! ## One source -/

namespace Scratch

theorem watched_explore (neighbours : Fin n → List (Fin n)) (w : Scratch n α) (polls : Nat) :
    Watched (fun result => result.2.1) (fun result => result.2.2) polls
      fun watch => w.explore neighbours watch polls := by
  fun_induction Scratch.explore neighbours .always polls w with
  | case1 polls w popped =>
    simp only [explore_of_none popped]
    exact .ends rfl rfl
  | case2 polls w node rest popped stop => cases stop
  | case3 polls w node rest popped more ih =>
    simp only [explore_of_some popped]
    exact .asks rfl rfl ih

theorem watched_sweep (polls : Nat) (nodes : List (Fin n)) (w : Scratch n α) :
    Watched (fun result => result.2.1) (fun result => result.2.2) polls
      fun watch => sweep watch polls nodes w := by
  induction nodes generalizing polls w with
  | nil => exact .ends rfl rfl
  | cons node rest ih => exact .asks rfl rfl (ih (polls + 1) (w.handOn node))

/-- A source is swept if it was not stopped before. -/
theorem singleSource_eq (neighbours : Fin n → List (Fin n)) (watch : Watch) (polls : Nat) (w : Scratch n α)
    (source : Fin n) :
    w.singleSource neighbours watch polls source
      = let explored := (w.start source).explore neighbours watch polls
        if explored.2.2 then sweep watch explored.2.1 explored.1.visited explored.1 else explored := by
  unfold singleSource
  rcases (w.start source).explore neighbours watch polls with ⟨explored, polls', completed⟩
  cases completed <;> rfl

theorem watched_singleSource (neighbours : Fin n → List (Fin n)) (polls : Nat) (w : Scratch n α)
    (source : Fin n) :
    Watched (fun result => result.2.1) (fun result => result.2.2) polls
      fun watch => w.singleSource neighbours watch polls source := by
  simp only [singleSource_eq]
  refine (watched_explore neighbours (w.start source) polls).bind
    (fun explored watch =>
      if explored.2.2 then sweep watch explored.2.1 explored.1.visited explored.1 else explored) ?_ ?_
  · intro explored finished
    simp only [finished, if_true]
    exact watched_sweep explored.2.1 explored.1.visited explored.1
  · intro explored stopped
    exact ⟨explored, rfl, stopped, fun _ => by simp [stopped]⟩

end Scratch

/-- How often a source asks: twice for every node that it reaches. -/
noncomputable def questions (steps : Fin n → List (Relationship n)) (source : Fin n) : Nat :=
  2 * {v : Fin n | Connected steps source v}.ncard

open Classical in
/-- A sum with the dependency of a source on a node added, if the source reaches the node and is another one. -/
noncomputable def addDependency (steps : Fin n → List (Relationship n)) (node : Fin n) (sum : α) (source : Fin n) :
    α :=
  if Connected steps source node ∧ node ≠ source then
    sum + (Scratch.afterSource (farEnds steps) source).dependency[node]
  else
    sum

section Source

variable {steps : Fin n → List (Relationship n)} {source : Fin n}

variable (α) in
theorem mem_visited_iff_connected {v : Fin n} :
    v ∈ (Scratch.afterSource (farEnds steps) source : Scratch n α).visited ↔ Connected steps source v := by
  rw [Scratch.mem_visited_afterSource, connected_iff]

variable (α) in
theorem questions_eq : questions steps source
    = 2 * (Scratch.exploredFrom (farEnds steps) source : Scratch n α).visited.length := by
  have reached : {v : Fin n | Connected steps source v}
      = ((Scratch.afterSource (farEnds steps) source : Scratch n α).visited.toFinset : Set (Fin n)) := by
    ext v
    rw [Finset.mem_coe, List.mem_toFinset]
    exact (mem_visited_iff_connected α).symm
  rw [questions, reached, Set.ncard_coe_finset, List.toFinset_card_of_nodup (Scratch.nodup_visited_afterSource _ _),
    Scratch.visited_afterSource]

/-- A source commits its dependencies node by node. -/
theorem getElem_commit_afterSource (scores : Table n α) (v : Fin n) :
    (Accumulation.commit scores source (Scratch.afterSource (farEnds steps) source))[v]
      = addDependency steps v scores[v] source := by
  rw [Accumulation.getElem_commit _ _ _ (Scratch.nodup_visited_afterSource _ _), addDependency]
  by_cases counts : Connected steps source v ∧ v ≠ source
  · rw [if_pos counts, if_pos ⟨(mem_visited_iff_connected α).2 counts.1, counts.2⟩]
  · rw [if_neg counts, if_neg fun both => counts ⟨(mem_visited_iff_connected α).1 both.1, both.2⟩]

/-- A budget that suffices does not change what a source does. -/
theorem Scratch.Clean.singleSource_enough {w : Scratch n α} (clean : w.Clean) {polls budget : Nat}
    (enough : polls + questions steps source ≤ budget) :
    w.singleSource (farEnds steps) (.budget budget) polls source
      = (afterSource (farEnds steps) source, polls + questions steps source, true) := by
  have watched := watched_singleSource (farEnds steps) polls w source
  have asked := clean.singleSource_always (farEnds steps) source polls
  rw [← questions_eq α] at asked
  rw [← asked]
  refine watched.eq_of_enough (Nat.le_trans (Nat.le_add_right _ _) enough) ?_
  rwa [asked]

theorem Scratch.Clean.singleSource_cut {w : Scratch n α} (clean : w.Clean) {polls budget : Nat}
    (unspent : polls ≤ budget) (short : budget < polls + questions steps source) :
    ∃ w', w.singleSource (farEnds steps) (.budget budget) polls source = (w', budget + 1, false) := by
  have watched := watched_singleSource (farEnds steps) polls w source
  have asked := clean.singleSource_always (farEnds steps) source polls
  rw [← questions_eq α] at asked
  obtain ⟨spent, stopped⟩ := watched.cut_of_short unspent (by rwa [asked])
  exact ⟨_, Prod.ext rfl (Prod.ext spent stopped)⟩

end Source

/-! ## All sources -/

namespace Accumulation

/-- What a run under a budget has done when it ends: the first `done` sources of a list. -/
structure Done (steps : Fin n → List (Relationship n)) (budget : Nat) (sources : List (Fin n))
    (a : Accumulation n α) (result : Accumulation n α × Bool) (done : Nat) : Prop where
  done_le : done ≤ sources.length
  fits : ∀ i ≤ sources.length,
    i ≤ done ↔ a.polls + ((sources.take i).map (questions steps)).sum ≤ budget
  scores : ∀ v : Fin n, result.1.scores[v] = (sources.take done).foldl (addDependency steps v) a.scores[v]
  completed : result.2 = true ↔ done = sources.length
  spent : done < sources.length → result.1.polls = budget + 1
  asked : done = sources.length → result.1.polls = a.polls + (sources.map (questions steps)).sum
  progress : result.1.progress.size = a.progress.size + done

/-- A run under a budget does the first sources of a list, as many as the budget suffices for. The source after them is
cut short, and nothing of it is added to the scores. -/
theorem exists_done (steps : Fin n → List (Relationship n)) {budget : Nat} (sources : List (Fin n))
    {a : Accumulation n α} (clean : a.scratch.Clean) (unspent : a.polls ≤ budget) :
    ∃ done, Done steps budget sources a (run (farEnds steps) (.budget budget) sources a) done := by
  -- Before each source the arrays are clean and the budget is not overspent.
  induction sources generalizing a with
  | nil =>
    refine ⟨0, Nat.le_refl _, fun i least => ?_, fun v => rfl, ?_, fun less => absurd less (Nat.lt_irrefl 0),
      fun _ => rfl, rfl⟩
    · obtain rfl := Nat.le_zero.1 least
      simpa using unspent
    · simp [run]
  | cons source rest ih =>
    obtain ⟨scores, scratch, polls, progress⟩ := a
    by_cases enough : polls + questions steps source ≤ budget
    · obtain ⟨done, h⟩ := @ih
        { scores := commit scores source (Scratch.afterSource (farEnds steps) source)
          scratch := Scratch.afterSource (farEnds steps) source
          polls := polls + questions steps source
          progress := progress.push (fractionAt source) } (Scratch.clean_afterSource _ _) enough
      refine ⟨done + 1, ?_⟩
      rw [run]
      simp only [clean.singleSource_enough enough]
      constructor
      case done_le => exact Nat.succ_le_succ h.done_le
      case fits =>
        intro i le
        cases i with
        | zero => simpa using unspent
        | succ i =>
          rw [Nat.succ_le_succ_iff, h.fits i (Nat.le_of_succ_le_succ le), List.take_succ_cons, List.map_cons,
            List.sum_cons, ← Nat.add_assoc]
      case scores =>
        intro v
        rw [h.scores, getElem_commit_afterSource]
        rfl
      case completed => exact h.completed.trans Nat.succ_inj.symm
      case spent => exact fun less => h.spent (Nat.lt_of_succ_lt_succ less)
      case asked =>
        intro all
        rw [h.asked (Nat.succ.inj all), List.map_cons, List.sum_cons, ← Nat.add_assoc]
      case progress =>
        rw [h.progress, Array.size_push]
        dsimp only
        omega
    -- The run ends inside this source, where the scores are those before it.
    · obtain ⟨w', cut⟩ := clean.singleSource_cut unspent (Nat.lt_of_not_le enough)
      refine ⟨0, ?_⟩
      rw [run]
      simp only [cut]
      refine ⟨Nat.zero_le _, fun i le => ?_, fun v => rfl, ?_, fun _ => rfl,
        fun all => absurd all.symm (Nat.succ_ne_zero _), rfl⟩
      · cases i with
        | zero => simpa using unspent
        | succ i =>
          simp only [List.take_succ_cons, List.map_cons, List.sum_cons]
          omega
      · simp

end Accumulation

/-! ## Scores -/

/-- The number of questions of the first sources. -/
noncomputable def questionsBefore (steps : Fin n → List (Relationship n)) (count : Nat) : Nat :=
  (((List.finRange n).take count).map (questions steps)).sum

/-- The report of a run under a budget that has done the first `done` sources, and nothing of the next one. -/
structure WholeSources (steps : Fin n → List (Relationship n)) (halved : Bool) (budget : Nat)
    (report : Report α (Scores n α)) (done : Nat) : Prop where
  done_le : done ≤ n
  /-- The budget suffices for the sources that are done, and for no more. -/
  fits : ∀ i ≤ n, i ≤ done ↔ questionsBefore steps i ≤ budget
  /-- The scores are the sums of the dependencies of the sources that are done. -/
  scores : ∀ v : Fin n,
    let sum := ((List.finRange n).take done).foldl (addDependency steps v) Scalar.zero
    report.value.values[v] = if halved then sum / Scalar.two else sum
  /-- The run finishes exactly if all sources are done. -/
  completed : report.completed = true ↔ done = n
  /-- A run that is stopped has used up its budget. -/
  spent : done < n → report.polls = budget + 1
  /-- A run that finishes has asked for all sources. -/
  asked : done = n → report.polls = questionsBefore steps n
  /-- A fraction is announced for every source that is done. -/
  progress : report.progress.length = done

/-- The scores under a budget are the whole contributions of the first sources. -/
theorem exists_wholeSources (steps : Fin n → List (Relationship n)) (halved : Bool) (budget : Nat) :
    ∃ done, WholeSources (α := α) steps halved budget (score (farEnds steps) halved (.budget budget)) done := by
  obtain ⟨done, h⟩ := Accumulation.exists_done steps (List.finRange n)
    (a := (Accumulation.start : Accumulation n α)) Scratch.clean_fresh (Nat.zero_le budget)
  have length : (List.finRange n).length = n := List.length_finRange
  have unasked : (Accumulation.start : Accumulation n α).polls = 0 := rfl
  refine ⟨done, ?_⟩
  unfold score
  constructor
  case done_le => exact h.done_le.trans_eq length
  case fits =>
    intro i le
    have fits := h.fits i (le.trans_eq length.symm)
    rwa [unasked, Nat.zero_add] at fits
  case scores =>
    intro v
    have zero : (Accumulation.start : Accumulation n α).scores[v] = Scalar.zero := Table.getElem_replicate _ _
    have scores := h.scores v
    rw [zero] at scores
    cases halved with
    | true => exact (Table.getElem_map _ _ _).trans (congrArg (· / Scalar.two) scores)
    | false => exact scores
  case completed => exact h.completed.trans ⟨fun all => all.trans length, fun all => all.trans length.symm⟩
  case spent => exact fun less => h.spent (less.trans_eq length.symm)
  case asked =>
    intro all
    have asked := h.asked (all.trans length.symm)
    rw [unasked, Nat.zero_add] at asked
    rw [questionsBefore, List.take_of_length_le length.le]
    exact asked
  case progress =>
    rw [Array.length_toList, h.progress]
    exact Nat.zero_add done

/-! ## Exact arithmetic -/

section Exact

variable (steps : Fin n → List (Relationship n))

theorem shareBetween_nonneg (source target node : Fin n) : 0 ≤ shareBetween steps source target node := by
  unfold shareBetween share
  split
  · exact div_nonneg (Nat.cast_nonneg _) (Nat.cast_nonneg _)
  · exact le_rfl

/-- A source adds the shares that a node has in the shortest paths from it. -/
theorem addDependency_eq (node : Fin n) (sum : Rat) (source : Fin n) :
    addDependency steps node sum source = sum + ∑ target, shareBetween steps source target node := by
  obtain ⟨explored, h, swept, -⟩ := Scratch.clean_fresh.singleSource (farEnds steps) 0 source
  rw [addDependency]
  by_cases same : node = source
  · subst same
    rw [if_neg fun both => both.2 rfl, Finset.sum_eq_zero fun target _ => shareBetween_source steps node target,
      add_zero]
  · rw [← dependency_eq_sum h swept (Ne.symm same)]
    split
    · rfl
    · next apart =>
      rw [swept.dependency_eq_zero h, add_zero]
      intro visited
      refine apart ⟨(mem_visited_iff_connected Rat).1 ?_, same⟩
      exact swept.visited.symm ▸ visited

theorem foldl_addDependency (node : Fin n) (sources : List (Fin n)) (sum : Rat) :
    sources.foldl (addDependency steps node) sum
      = sum + (sources.map fun source => ∑ target, shareBetween steps source target node).sum := by
  induction sources generalizing sum with
  | nil => simp
  | cons source rest ih =>
    rw [List.foldl_cons, ih, addDependency_eq, List.map_cons, List.sum_cons, add_assoc]

/-- The sum over the first numbers is no larger than the sum over all, where nothing is negative. -/
theorem sum_take_finRange_le (f : Fin n → Rat) (nonnegative : ∀ i, 0 ≤ f i) (count : Nat) :
    (((List.finRange n).take count).map f).sum ≤ ∑ i, f i := by
  rw [Fin.sum_univ_def, ← List.take_append_drop count (List.finRange n), List.map_append, List.sum_append,
    List.take_append_drop]
  refine le_add_of_nonneg_right (List.sum_nonneg fun value member => ?_)
  obtain ⟨i, -, rfl⟩ := List.mem_map.1 member
  exact nonnegative i

variable {steps} {halved : Bool} {budget done : Nat} {report : Report Rat (Scores n Rat)}

theorem WholeSources.values_eq (h : WholeSources steps halved budget report done) (v : Fin n) :
    report.value.values[v] = (((List.finRange n).take done).map fun source =>
      ∑ target, shareBetween steps source target v).sum / if halved then 2 else 1 := by
  have scores := h.scores v
  rw [scores, foldl_addDependency]
  have zero : (Scalar.zero : Rat) = 0 := rfl
  have two : (Scalar.two : Rat) = 2 := rfl
  rw [zero, two, zero_add]
  cases halved with
  | true => rfl
  | false => exact (div_one _).symm

/-- No score is larger than that of the run that is not stopped. -/
theorem WholeSources.values_le (h : WholeSources steps halved budget report done) (v : Fin n) :
    report.value.values[v]
      ≤ (score (farEnds steps) halved .always : Report Rat (Scores n Rat)).value.values[v] := by
  rw [h.values_eq, (score_always steps halved).2]
  refine div_le_div_of_nonneg_right (sum_take_finRange_le _ (fun source => ?_) done) ?_
  · exact Finset.sum_nonneg fun target _ => shareBetween_nonneg steps source target v
  · split <;> norm_num

end Exact

/-! ## Graphs -/

/-- A run under a budget does the first sources, as many as the budget suffices for, and nothing of the next one. In
exact arithmetic its scores are sums of shares, and none is larger than in the end. -/
theorem betweenness_interrupted (direction : Direction) (budget : Nat) :
    (∀ {α : Type} [Scalar α] {g : Graph α}, g.Loaded →
      ∃ done, WholeSources (g.along direction) (direction == .both) budget
        (betweenness g direction (.budget budget)) done)
      ∧ ∀ {g : Graph Rat}, g.Loaded →
        ∃ done, WholeSources (g.along direction) (direction == .both) budget
            (betweenness g direction (.budget budget)) done
          ∧ ∀ v : Fin g.size,
            (betweenness g direction (.budget budget)).value.values[v]
                = (((List.finRange g.size).take done).map fun source =>
                  ∑ target, shareBetween (g.along direction) source target v).sum
                    / (if direction = .both then 2 else 1)
              ∧ (betweenness g direction (.budget budget)).value.values[v]
                ≤ (betweenness g direction .always).value.values[v] := by
  constructor
  · intro α _ g loaded
    rw [betweenness, neighbours_eq_farEnds loaded]
    exact exists_wholeSources _ _ budget
  · intro g loaded
    rw [betweenness, betweenness, neighbours_eq_farEnds loaded]
    obtain ⟨done, h⟩ := exists_wholeSources (α := Rat) (g.along direction) (direction == .both) budget
    refine ⟨done, h, fun v => ⟨?_, h.values_le v⟩⟩
    simpa using h.values_eq v

/-- A run over the junctions may ask three times. -/
theorem betweenness_interrupted_junctions : ∃ g : Graph Rat,
    Loading.loadInto .dense Loading.fiveByDefault Loading.junctions = .ok g ∧ g.Loaded
      ∧ ∃ done, WholeSources (g.along .both) true 3 (betweenness g .both (.budget 3)) done
        ∧ ∀ v : Fin g.size, (betweenness g .both (.budget 3)).value.values[v]
            = (((List.finRange g.size).take done).map fun source =>
              ∑ target, shareBetween (g.along .both) source target v).sum / 2
          ∧ (betweenness g .both (.budget 3)).value.values[v] ≤ (betweenness g .both .always).value.values[v] := by
  obtain ⟨g, loaded, -⟩ := Loading.exists_load_junctions .dense
  have isLoaded : g.Loaded := ⟨_, _, _, loaded⟩
  obtain ⟨done, h, values⟩ := (betweenness_interrupted .both 3).2 isLoaded
  exact ⟨g, loaded, isLoaded, done, h, values⟩

end NetworkAnalysis.Centrality
