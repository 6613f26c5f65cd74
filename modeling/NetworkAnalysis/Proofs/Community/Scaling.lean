import NetworkAnalysis.Proofs.Community.Passes
import NetworkAnalysis.Proofs.SortingMapped

/-!
# Weights on another scale

A search for communities weighs weights against weights only: a gain against a slack that is relative to the total
weight, and shares of the total weight against each other. When all weights of a level are multiplied by a positive
number, the tables of the search are multiplied by it too, every comparison comes out as it did, and every pass makes
the same moves. The modularity has no scale, and neither has what is reported.
-/

namespace NetworkAnalysis

namespace Community

variable {n k : Nat} (scale : Rat)

/-- An entry with its weight on another scale. -/
def scaledEntry (entry : Fin n × Rat) : Fin n × Rat :=
  (entry.1, scale * entry.2)

theorem foldl_add_scaled (row : List (Fin n × Rat)) (start : Rat) :
    (row.map (scaledEntry scale)).foldl (fun sum entry => sum + entry.2) (scale * start)
      = scale * row.foldl (fun sum entry => sum + entry.2) start := by
  rw [List.foldl_map]
  exact List.foldl_hom (scale * ·) fun sum entry => (mul_add scale sum entry.2).symm

/-- What two degrees let expect between them has the scale of the weights. -/
theorem expected_scaled {scale : Rat} (positive : 0 < scale) (degree degree' whole : Rat) :
    scale * degree * (scale * degree') / (scale * whole) = scale * (degree * degree' / whole) := by
  rw [mul_mul_mul_comm, mul_assoc, mul_div_mul_left _ _ positive.ne', mul_div_assoc]

/-! ## Levels -/

namespace Level

/-- The level with all weights on another scale. -/
def scaled (level : Level n Rat) : Level n Rat where
  rows := level.rows.map (List.map (scaledEntry scale))
  selfLoops := level.selfLoops.map (scale * ·)
  degrees := level.degrees.map (scale * ·)
  total := scale * level.total

theorem ofRows_scaled (rows : Table n (List (Fin n × Rat) × Rat)) :
    ofRows (rows.map fun row => (row.1.map (scaledEntry scale), scale * row.2)) = (ofRows rows).scaled scale := by
  generalize mapped : (rows.map fun row => (row.1.map (scaledEntry scale), scale * row.2)) = rows'
  have here : ∀ u : Fin n, rows'[u] = (rows[u].1.map (scaledEntry scale), scale * rows[u].2) := by
    intro u
    rw [← mapped, Table.getElem_map]
  have degrees : (ofRows rows').degrees = (ofRows rows).degrees.map (scale * ·) := by
    ext u
    simp only [ofRows, Table.getElem_map, here]
    exact foldl_add_scaled scale _ _
  have total : (ofRows rows').total = scale * (ofRows rows).total := by
    show Scalar.sum (ofRows rows').degrees.toList = scale * Scalar.sum (ofRows rows).degrees.toList
    rw [degrees, Table.toList_map, Scalar.sum_rat, Scalar.sum_rat]
    rw [← List.map_id (ofRows rows).degrees.toList, List.map_map]
    exact List.sum_map_mul_left _ id scale
  have selves : (ofRows rows').selfLoops = (ofRows rows).selfLoops.map (scale * ·) := by
    ext u
    simp only [ofRows, Table.getElem_map, here]
  have others : (ofRows rows').rows = (ofRows rows).rows.map (List.map (scaledEntry scale)) := by
    ext u : 1
    simp only [ofRows, Table.getElem_map, here]
  unfold scaled
  rw [← degrees, ← total, ← selves, ← others]

theorem splitRow_scaled (node : Fin n) (steps : List (Fin n × Rat)) :
    splitRow node (steps.map (scaledEntry scale))
      = ((splitRow node steps).1.map (scaledEntry scale), scale * (splitRow node steps).2) := by
  have selves := foldl_add_scaled scale (steps.filter fun step => step.1 = node) 0
  rw [mul_zero] at selves
  unfold splitRow
  rw [List.filter_map, List.filter_map, Scalar.zero_rat]
  exact Prod.ext rfl selves

theorem ofNetwork_scaled (steps : Network n Rat) :
    ofNetwork (fun u => (steps u).map (scaledEntry scale)) = (ofNetwork steps).scaled scale := by
  unfold ofNetwork
  rw [← ofRows_scaled]
  congr 1
  ext u : 1
  rw [Table.getElem_ofFn, Table.getElem_map, Table.getElem_ofFn]
  exact splitRow_scaled scale u (steps u)

variable {scale} (level : Level n Rat)

theorem total_scaled_le_zero_iff (positive : 0 < scale) :
    (level.scaled scale).total ≤ Scalar.zero ↔ level.total ≤ Scalar.zero := by
  rw [Scalar.zero_rat, ← not_lt, ← not_lt]
  exact not_congr (mul_pos_iff_of_pos_left positive)

theorem weightTo_scaled (row : List (Fin n × Rat)) (v : Fin n) :
    weightTo (row.map (scaledEntry scale)) v = scale * weightTo row v := by
  induction row with
  | nil => exact (mul_zero scale).symm
  | cons entry rest ih =>
    rw [List.map_cons, weightTo_cons, weightTo_cons, ih, mul_add, mul_ite, mul_zero]
    rfl

theorem weight_scaled (u v : Fin n) : (level.scaled scale).weight u v = scale * level.weight u v := by
  unfold weight
  simp only [scaled, Table.getElem_map]
  rw [weightTo_scaled, mul_add, mul_ite, mul_zero]

theorem surplus_scaled (positive : 0 < scale) (u v : Fin n) :
    (level.scaled scale).surplus u v = level.surplus u v := by
  unfold surplus
  rw [weight_scaled]
  simp only [scaled, Table.getElem_map]
  rw [expected_scaled positive, ← mul_sub, mul_div_mul_left _ _ positive.ne']

/-- Modularity has no scale. -/
theorem modularity_scaled (positive : 0 < scale) (community : Table n (Fin k)) :
    (level.scaled scale).modularity community = level.modularity community := by
  have guard := total_scaled_le_zero_iff level positive
  rw [Scalar.zero_rat] at guard
  rw [modularity_eq_quality, modularity_eq_quality]
  unfold quality
  simp only [guard, surplus_scaled level positive]

/-! ## Coarse levels -/

variable (scale) in
/-- The bundle with all weights on another scale. -/
def Bundle.scaled (b : Bundle k Rat) : Bundle k Rat where
  outside := b.outside.map (List.map (scaledEntry scale))
  inside := b.inside.map (scale * ·)

namespace Bundle

variable (b : Bundle k Rat)

theorem scaled_empty : (empty : Bundle k Rat).scaled scale = empty := by
  unfold scaled empty
  congr 1
  · ext c : 1
    simp
  · ext c
    simp [Scalar.zero_rat]

theorem addInside_scaled (c : Fin k) (weight : Rat) :
    (b.scaled scale).addInside c (scale * weight) = (b.addInside c weight).scaled scale := by
  simp only [addInside, scaled, Table.map_set, Table.getElem_map, mul_add]

theorem addOutside_scaled (c d : Fin k) (weight : Rat) :
    (b.scaled scale).addOutside c d (scale * weight) = (b.addOutside c d weight).scaled scale := by
  simp only [addOutside, scaled, Table.map_set, Table.getElem_map, List.map_cons, scaledEntry]

theorem addEntry_scaled (community : Table n (Fin k)) (c : Fin k) (entry : Fin n × Rat) :
    (b.scaled scale).addEntry community c (scaledEntry scale entry)
      = (b.addEntry community c entry).scaled scale := by
  unfold addEntry
  dsimp only [scaledEntry]
  split
  · exact addInside_scaled b c entry.2
  · exact addOutside_scaled b c _ entry.2

theorem addNode_scaled (community : Table n (Fin k)) (node : Fin n) :
    (b.scaled scale).addNode (level.scaled scale) community node
      = (b.addNode level community node).scaled scale := by
  unfold addNode
  simp only [Level.scaled, Table.getElem_map]
  rw [addInside_scaled, List.foldl_map]
  exact List.foldl_hom (scaled scale) fun b entry => addEntry_scaled b community _ entry

end Bundle

theorem mergeRuns_scaled (entries : List (Fin k × Rat)) :
    mergeRuns (entries.map (scaledEntry scale)) = (mergeRuns entries).map (scaledEntry scale) := by
  fun_induction mergeRuns entries with
  | case1 => rw [List.map_nil, mergeRuns]
  | case2 entry => rw [List.map_cons, List.map_nil, mergeRuns]
  | case3 d weight next rest ih =>
    rw [List.map_cons, List.map_cons, scaledEntry, scaledEntry, mergeRuns, if_pos rfl, ← mul_add]
    exact ih
  | case4 d weight e next rest other ih =>
    rw [List.map_cons, List.map_cons, scaledEntry, scaledEntry, mergeRuns, if_neg other, List.map_cons]
    exact congrArg _ ih

theorem mergeRow_scaled (entries : List (Fin k × Rat)) :
    mergeRow (entries.map (scaledEntry scale)) = (mergeRow entries).map (scaledEntry scale) := by
  have sorted : Sorting.introsort (fun a b => a.1 < b.1) (entries.map (scaledEntry scale))
      = (Sorting.introsort (fun a b => a.1 < b.1) entries).map (scaledEntry scale) :=
    Sorting.introsort_map (fun _ _ => rfl) entries
  rw [mergeRow, sorted, mergeRuns_scaled, mergeRow]

theorem coarsen_scaled (community : Table n (Fin k)) :
    (level.scaled scale).coarsen community = (level.coarsen community).scaled scale := by
  have bundled : (List.finRange n).foldl (Bundle.addNode (level.scaled scale) community) (Bundle.empty.scaled scale)
      = ((List.finRange n).foldl (Bundle.addNode level community) Bundle.empty).scaled scale :=
    List.foldl_hom (Bundle.scaled scale) fun b node => b.addNode_scaled level community node
  rw [Bundle.scaled_empty] at bundled
  unfold coarsen
  dsimp only
  rw [bundled, ← ofRows_scaled]
  congr 1
  ext c : 1
  simp only [Table.getElem_ofFn, Table.getElem_map, Bundle.scaled]
  rw [← List.map_reverse, mergeRow_scaled]

end Level

/-! ## Moves -/

variable {scale}

variable (scale) in
/-- The communities with all degrees on another scale. -/
def MoveState.scaled (s : MoveState n Rat) : MoveState n Rat where
  community := s.community
  total := s.total.map (scale * ·)
  size := s.size

theorem MoveState.relocate_scaled (s : MoveState n Rat) (node target : Fin n) (degree : Rat) :
    (s.scaled scale).relocate node target (scale * degree) = (s.relocate node target degree).scaled scale := by
  let without := s.total.set s.community[node] (s.total[s.community[node]] - degree)
  have left := Table.map_set (scale * ·) s.total s.community[node] (s.total[s.community[node]] - degree)
  have joined := Table.map_set (scale * ·) without target (without[target] + degree)
  rw [mul_sub] at left
  rw [mul_add] at joined
  unfold relocate scaled
  dsimp only
  rw [Table.getElem_map, ← left, Table.getElem_map, ← joined]

namespace Scratch

variable (scale) in
/-- The table with all weights on another scale. -/
def scaled (s : Scratch n Rat) : Scratch n Rat where
  weight := s.weight.map (scale * ·)
  seen := s.seen
  touched := s.touched

variable (s : Scratch n Rat)

theorem scaled_fresh : (fresh : Scratch n Rat).scaled scale = fresh := by
  unfold scaled fresh
  congr 1
  ext c
  rw [Table.getElem_map, Table.getElem_replicate, Scalar.zero_rat, mul_zero]

theorem touch_scaled (c : Fin n) : (s.scaled scale).touch c = (s.touch c).scaled scale := by
  unfold touch
  by_cases seen : s.seen[c]
  · rw [if_pos seen]
    exact if_pos seen
  · rw [if_neg seen]
    exact if_neg seen

theorem add_scaled (c : Fin n) (weight : Rat) :
    (s.scaled scale).add c (scale * weight) = (s.add c weight).scaled scale := by
  unfold add
  rw [touch_scaled]
  unfold scaled
  dsimp only
  rw [Table.map_set, Table.getElem_map, mul_add]

theorem clearAt_scaled (c : Fin n) : (s.scaled scale).clearAt c = (s.clearAt c).scaled scale := by
  unfold clearAt scaled
  dsimp only
  rw [Table.map_set, Scalar.zero_rat, mul_zero]

theorem clear_scaled : (s.scaled scale).clear = s.clear.scaled scale := by
  have cleared : s.touched.toList.foldl clearAt (scaled scale { s with touched := #[] })
      = (s.touched.toList.foldl clearAt { s with touched := #[] }).scaled scale :=
    List.foldl_hom (scaled scale) fun s c => clearAt_scaled s c
  rw [Array.foldl_toList, Array.foldl_toList] at cleared
  exact congrArg (fun s => { s with touched := #[] }) cleared

theorem collect_scaled (community : Table n (Fin n)) (row : List (Fin n × Rat)) :
    (s.scaled scale).collect community (row.map (scaledEntry scale)) = (s.collect community row).scaled scale := by
  unfold collect
  rw [clear_scaled, List.foldl_map]
  exact List.foldl_hom (scaled scale) fun s entry => add_scaled s community[entry.1] entry.2

section Choice

variable (positive : 0 < scale)

include positive

theorem gain_scaled (weight total degree whole : Rat) :
    gain (scale * weight) (scale * total) (scale * degree) (scale * whole)
      = scale * gain weight total degree whole := by
  unfold gain
  rw [expected_scaled positive, mul_sub]

theorem better_scaled (total : Table n Rat) (degree whole slack : Rat) (best : Fin n × Rat) (candidate : Fin n) :
    (s.scaled scale).better (total.map (scale * ·)) (scale * degree) (scale * whole) (scale * slack)
        (scaledEntry scale best) candidate
      = scaledEntry scale (s.better total degree whole slack best candidate) := by
  unfold better
  simp only [scaled, scaledEntry, Table.getElem_map, gain_scaled positive, ← mul_add, mul_lt_mul_iff_right₀ positive]
  split <;> rfl

theorem choose_scaled (level : Level n Rat) (state : MoveState n Rat) (node : Fin n) :
    (s.scaled scale).choose (level.scaled scale) (state.scaled scale) node = s.choose level state node := by
  have own := gain_scaled positive s.weight[state.community[node]]
    (state.total[state.community[node]] - level.degrees[node]) level.degrees[node] level.total
  rw [mul_sub] at own
  have slack : Scalar.slack * (scale * level.total) = scale * (Scalar.slack * level.total) := mul_left_comm _ _ _
  have chosen : ∀ (others : List (Fin n)) (start : Fin n × Rat),
      (others.foldl ((s.scaled scale).better (state.total.map (scale * ·)) (scale * level.degrees[node])
          (scale * level.total) (scale * (Scalar.slack * level.total))) (scaledEntry scale start)).1
        = (others.foldl (s.better state.total level.degrees[node] level.total (Scalar.slack * level.total))
          start).1 := by
    intro others start
    rw [List.foldl_hom (scaledEntry scale) fun best candidate =>
      s.better_scaled positive state.total level.degrees[node] level.total _ best candidate]
    rfl
  unfold choose
  simp only [Level.scaled, MoveState.scaled, Table.getElem_map]
  rw [← chosen, ← slack]
  simp only [scaledEntry, ← own, scaled, Table.getElem_map]
  rfl

theorem best_scaled (level : Level n Rat) (state : MoveState n Rat) (node : Fin n) :
    (s.scaled scale).best (level.scaled scale) (state.scaled scale) node
      = ((s.best level state node).1, (s.best level state node).2.scaled scale) := by
  unfold best
  simp only [level.total_scaled_le_zero_iff positive]
  split
  · rfl
  · have collected : (s.scaled scale).collect (state.scaled scale).community (level.scaled scale).rows[node]
        = (s.collect state.community level.rows[node]).scaled scale := by
      simp only [Level.scaled, Table.getElem_map]
      exact s.collect_scaled state.community level.rows[node]
    rw [collected, choose_scaled _ positive]

end Choice

end Scratch

/-! ## Passes -/

section Passes

variable (positive : 0 < scale) (level : Level n Rat) (state : MoveState n Rat)

include positive

omit positive in
variable (scale) in
/-- The pass with all degrees on another scale. -/
def Pass.scaled (pass : Pass n Rat) : Pass n Rat where
  state := pass.state.scaled scale
  scratch := pass.scratch.scaled scale
  moves := pass.moves

theorem Pass.visit_scaled (pass : Pass n Rat) (node : Fin n) :
    (pass.scaled scale).visit (level.scaled scale) node = (pass.visit level node).scaled scale := by
  have best := pass.scratch.best_scaled positive level pass.state node
  by_cases stays : (pass.scratch.best level pass.state node).1 = pass.state.community[node]
  · unfold visit
    dsimp only [scaled]
    rw [best, if_pos stays]
    exact if_pos stays
  · have degree : (level.scaled scale).degrees[node] = scale * level.degrees[node] := Table.getElem_map _ _ _
    unfold visit
    dsimp only [scaled]
    rw [best, if_neg stays, degree, MoveState.relocate_scaled]
    exact if_neg stays

theorem sequentialPass_scaled :
    sequentialPass (level.scaled scale) (state.scaled scale)
      = ((sequentialPass level state).1.scaled scale, (sequentialPass level state).2) := by
  have run : (List.finRange n).foldl (Pass.visit (level.scaled scale)) (Pass.scaled scale ⟨state, .fresh, 0⟩)
      = ((List.finRange n).foldl (Pass.visit level) ⟨state, .fresh, 0⟩).scaled scale :=
    List.foldl_hom (Pass.scaled scale) (Pass.visit_scaled positive level)
  unfold Pass.scaled at run
  rw [Scratch.scaled_fresh] at run
  unfold sequentialPass
  dsimp only
  rw [run]

omit positive in
variable (scale) in
/-- The proposals with all weights on another scale. -/
def Proposing.scaled (p : Proposing n Rat) : Proposing n Rat where
  scratch := p.scratch.scaled scale
  moves := p.moves

theorem Proposing.visit_scaled (p : Proposing n Rat) (node : Fin n) :
    (p.scaled scale).visit (level.scaled scale) (state.scaled scale) node
      = (p.visit level state node).scaled scale := by
  have best := p.scratch.best_scaled positive level state node
  unfold visit
  dsimp only
  rw [apply_ite (scaled scale)]
  unfold scaled
  simp only [best]
  rfl

/-- The same moves are proposed. -/
theorem propose_scaled (nodes : List (Fin n)) :
    propose (level.scaled scale) (state.scaled scale) nodes = propose level state nodes := by
  have run : nodes.foldl (Proposing.visit (level.scaled scale) (state.scaled scale))
        (Proposing.scaled scale ⟨.fresh, []⟩)
      = (nodes.foldl (Proposing.visit level state) ⟨.fresh, []⟩).scaled scale :=
    List.foldl_hom (Proposing.scaled scale) (Proposing.visit_scaled positive level state)
  unfold Proposing.scaled at run
  rw [Scratch.scaled_fresh] at run
  unfold propose
  rw [run]

omit positive in
theorem carryOut_scaled (moves : List (Fin n × Fin n)) :
    moves.foldl (carryOut (level.scaled scale)) (state.scaled scale)
      = (moves.foldl (carryOut level) state).scaled scale := by
  refine List.foldl_hom (MoveState.scaled scale) fun state move => ?_
  have degree : (level.scaled scale).degrees[move.1] = scale * level.degrees[move.1] := Table.getElem_map _ _ _
  unfold carryOut
  rw [degree, MoveState.relocate_scaled]

theorem partitionedPass_scaled (workers : Nat) :
    partitionedPass (level.scaled scale) workers (state.scaled scale)
      = ((partitionedPass level workers state).1.scaled scale, (partitionedPass level workers state).2) := by
  have proposed : (partitions n workers).flatMap (propose (level.scaled scale) (state.scaled scale))
      = (partitions n workers).flatMap (propose level state) := by
    congr 1
    funext nodes
    exact propose_scaled positive level state nodes
  have modularity : ∀ state : MoveState n Rat,
      (level.scaled scale).modularity (state.scaled scale).community = level.modularity state.community :=
    fun state => level.modularity_scaled positive state.community
  unfold partitionedPass
  dsimp only
  rw [proposed, carryOut_scaled, modularity, modularity]
  split
  · rfl
  · split <;> rfl

end Passes

/-! ## Searches -/

section Searches

variable (positive : 0 < scale)

include positive

theorem Limits.pass_scaled (limits : Limits) (level : Level n Rat) (state : MoveState n Rat) :
    limits.pass (level.scaled scale) (state.scaled scale)
      = ((limits.pass level state).1.scaled scale, (limits.pass level state).2) := by
  unfold Limits.pass
  cases limits.workers with
  | none => exact sequentialPass_scaled positive level state
  | some workers => exact partitionedPass_scaled positive level state workers

omit positive in
variable (scale) in
/-- The passes of a level with all weights on another scale. -/
def LevelRun.scaled (run : LevelRun n Rat) : LevelRun n Rat :=
  { run with state := run.state.scaled scale }

theorem optimizeFrom_scaled (limits : Limits) (watch : Watch) (level : Level n Rat) (left : Nat)
    (state : MoveState n Rat) (passes moves polls : Nat) :
    optimizeFrom limits watch (level.scaled scale) left (state.scaled scale) passes moves polls
      = (optimizeFrom limits watch level left state passes moves polls).scaled scale := by
  induction left generalizing state passes moves polls with
  | zero => rfl
  | succ left ih =>
    unfold optimizeFrom
    rw [limits.pass_scaled positive]
    dsimp only
    split
    · rfl
    · split
      · rfl
      · exact ih _ _ _ _

theorem optimize_scaled (limits : Limits) (watch : Watch) (polls : Nat) (level : Level n Rat) :
    optimize limits watch polls (level.scaled scale) = (optimize limits watch polls level).scaled scale :=
  optimizeFrom_scaled positive limits watch level _ (.singletons level) 0 0 polls

namespace Climb

variable {m : Nat}

omit positive in
variable (scale) in
/-- The search with the weights of its level on another scale. -/
def scaled (c : Climb n m Rat) : Climb n m Rat :=
  { c with level := c.level.scaled scale }

theorem start_scaled (level : Level n Rat) : start (level.scaled scale) = (start level).scaled scale := by
  have modularity := level.modularity_scaled positive (.ofFn id : Table n (Fin n))
  unfold start scaled
  rw [modularity]

theorem next_scaled (limits : Limits) (c : Climb n m Rat) (run : LevelRun m Rat) :
    (c.scaled scale).next limits (run.scaled scale) = (c.next limits run).scaled scale := by
  have modularity := c.level.modularity_scaled positive (renumber run.state.community).community
  have coarse : (c.level.scaled scale).coarsen (renumber run.state.community).community
      = (c.level.coarsen (renumber run.state.community).community).scaled scale :=
    c.level.coarsen_scaled (renumber run.state.community).community
  unfold next
  dsimp only [scaled, LevelRun.scaled, MoveState.scaled]
  rw [modularity, coarse]

omit positive in
theorem report_scaled (c : Climb n m Rat) (completed : Bool) :
    (c.scaled scale).report completed = c.report completed := rfl

theorem run_scaled (limits : Limits) (watch : Watch) (left : Nat) (c : Climb n m Rat) :
    (c.scaled scale).run limits watch left = c.run limits watch left := by
  induction left generalizing m c with
  | zero => rfl
  | succ left ih =>
    have passes : optimize limits watch (c.scaled scale).polls (c.scaled scale).level
        = (optimize limits watch c.polls c.level).scaled scale :=
      optimize_scaled positive limits watch c.polls c.level
    have later := ih (c.next limits (optimize limits watch c.polls c.level))
    have next := next_scaled positive limits c (optimize limits watch c.polls c.level)
    unfold run
    dsimp only
    rw [passes]
    by_cases rests : (optimize limits watch c.polls c.level).moves = 0
    · rw [if_pos rests]
      exact if_pos rests
    · rw [if_neg rests]
      refine (if_neg rests).trans ?_
      by_cases completed : (optimize limits watch c.polls c.level).completed
      · rw [if_pos completed]
        refine (if_pos completed).trans ?_
        exact (congrArg (run limits watch left) next).trans later
      · rw [if_neg completed]
        refine (if_neg completed).trans ?_
        exact (congrArg (report · false) next).trans (report_scaled _ false)

end Climb

theorem detectIn_scaled (limits : Limits) (watch : Watch) (level : Level n Rat) :
    detectIn (level.scaled scale) limits watch = detectIn level limits watch := by
  unfold detectIn
  rw [Climb.start_scaled positive, Climb.run_scaled positive]

end Searches

end Community

end NetworkAnalysis
