import Mathlib
import NetworkAnalysis.Community.Level
import NetworkAnalysis.Proofs.LoadedGraph

/-!
# The matrix of a level

In exact arithmetic a level is a matrix: `weight level u v` is the weight of all entries at `u` for `v`, the
self-loops of `u` where both are the same node. Degrees are the sums of its rows, and the total is the sum of the
degrees (`Exact`). The matrix of a loaded graph is symmetric, because every relationship is an entry at both of
its ends with the same weight.
-/

namespace NetworkAnalysis

/-! ## Exact arithmetic -/

namespace Scalar

theorem zero_rat : (Scalar.zero : Rat) = 0 := rfl

theorem slack_rat : (Scalar.slack : Rat) = 1 / 1000000000000 := rfl

/-- Where every step adds something to what is read, all steps add the sum. -/
theorem read_foldl {σ β : Type} (read : σ → Rat) {step : σ → β → σ} {f : β → Rat}
    (adds : ∀ state x, read (step state x) = read state + f x) (list : List β) (state : σ) :
    read (list.foldl step state) = read state + (list.map f).sum := by
  induction list generalizing state with
  | nil => simp
  | cons x rest ih => rw [List.foldl_cons, ih, adds, List.map_cons, List.sum_cons, add_assoc]

theorem foldl_add_rat {β : Type} (f : β → Rat) (list : List β) (start : Rat) :
    list.foldl (fun sum x => sum + f x) start = start + (list.map f).sum :=
  read_foldl id (fun _ _ => rfl) list start

theorem sum_rat (list : List Rat) : Scalar.sum list = list.sum := by
  have folded := foldl_add_rat id list 0
  rw [List.map_id, zero_add] at folded
  exact folded

end Scalar

theorem Table.sum_toList {n : Nat} (t : Table n Rat) : t.toList.sum = ∑ i : Fin n, t[i] := by
  rw [Fin.sum_univ_def]
  congr 1
  refine List.ext_getElem (by simp) fun i _ _ => ?_
  rw [Table.getElem_toList]
  simp

namespace Community.Level

variable {n : Nat}

/-! ## Rows and matrices -/

/-- The weight of the entries of a row for one node. -/
def weightTo (row : List (Fin n × Rat)) (v : Fin n) : Rat :=
  (row.map fun entry => if entry.1 = v then entry.2 else 0).sum

@[simp]
theorem weightTo_nil (v : Fin n) : weightTo [] v = 0 := rfl

@[simp]
theorem weightTo_cons (entry : Fin n × Rat) (row : List (Fin n × Rat)) (v : Fin n) :
    weightTo (entry :: row) v = (if entry.1 = v then entry.2 else 0) + weightTo row v := by
  simp [weightTo]

@[simp]
theorem weightTo_append (front back : List (Fin n × Rat)) (v : Fin n) :
    weightTo (front ++ back) v = weightTo front v + weightTo back v := by
  simp [weightTo]

theorem weightTo_perm {row row' : List (Fin n × Rat)} (same : row.Perm row') (v : Fin n) :
    weightTo row v = weightTo row' v :=
  (same.map _).sum_eq

theorem weightTo_eq_zero {row : List (Fin n × Rat)} {v : Fin n}
    (other : ∀ entry ∈ row, entry.1 ≠ v) : weightTo row v = 0 := by
  refine List.sum_eq_zero fun weight member => ?_
  obtain ⟨entry, inside, rfl⟩ := List.mem_map.1 member
  exact if_neg (other entry inside)

/-- Entries for one node have all their weight there. -/
theorem weightTo_of_all {row : List (Fin n × Rat)} {u : Fin n} (all : ∀ entry ∈ row, entry.1 = u)
    (v : Fin n) : weightTo row v = if u = v then (row.map Prod.snd).sum else 0 := by
  induction row with
  | nil => simp
  | cons entry rest ih =>
    have here := all entry List.mem_cons_self
    rw [weightTo_cons, ih fun other member => all other (List.mem_cons_of_mem _ member), here]
    by_cases same : u = v <;> simp [same]

theorem weightTo_filter_add (row : List (Fin n × Rat)) (p : Fin n × Rat → Bool) (v : Fin n) :
    weightTo (row.filter p) v + weightTo (row.filter fun entry => !p entry) v = weightTo row v := by
  rw [← weightTo_append]
  exact weightTo_perm (List.filter_append_perm p row) v

theorem sum_filter_eq (row : List (Fin n × Rat)) (u : Fin n) :
    ((row.filter fun entry => entry.1 = u).map Prod.snd).sum = weightTo row u := by
  induction row with
  | nil => rfl
  | cons entry rest ih => by_cases here : entry.1 = u <;> simp [here, ih]

theorem weightTo_flatMap {β : Type} (list : List β) (f : β → List (Fin n × Rat)) (v : Fin n) :
    weightTo (list.flatMap f) v = (list.map fun x => weightTo (f x) v).sum := by
  induction list with
  | nil => rfl
  | cons x rest ih => rw [List.flatMap_cons, weightTo_append, ih, List.map_cons, List.sum_cons]

/-- The weight of the entries for a set of nodes. -/
theorem sum_entries (row : List (Fin n × Rat)) (p : Fin n → Prop) [DecidablePred p] :
    (row.map fun entry => if p entry.1 then entry.2 else 0).sum
      = ∑ v, if p v then weightTo row v else 0 := by
  induction row with
  | nil => simp
  | cons entry rest ih =>
    have first : ∀ v, (if p v then weightTo (entry :: rest) v else 0)
        = (if entry.1 = v then if p v then entry.2 else 0 else 0)
          + if p v then weightTo rest v else 0 := by
      intro v
      by_cases holds : p v <;> simp [holds]
    rw [List.map_cons, List.sum_cons, ih, Finset.sum_congr rfl fun v _ => first v,
      Finset.sum_add_distrib, Finset.sum_ite_eq, if_pos (Finset.mem_univ _)]

theorem sum_weights (row : List (Fin n × Rat)) :
    (row.map Prod.snd).sum = ∑ v, weightTo row v := by
  have all := sum_entries row fun _ => True
  simpa using all

/-- The weight of all entries at a node for another, or of the self-loops of a node. -/
def weight (level : Level n Rat) (u v : Fin n) : Rat :=
  (if u = v then level.selfLoops[u] else 0) + weightTo level.rows[u] v

theorem sum_weight (level : Level n Rat) (u : Fin n) :
    ∑ v, level.weight u v = level.selfLoops[u] + (level.rows[u].map Prod.snd).sum := by
  rw [sum_weights]
  simp only [weight, Finset.sum_add_distrib, Finset.sum_ite_eq, Finset.mem_univ, if_true]

/-- Degrees are the sums of the rows, and the total is the sum of the degrees. -/
structure Exact (level : Level n Rat) : Prop where
  degree : ∀ u : Fin n, level.degrees[u] = ∑ v, level.weight u v
  total : level.total = ∑ u : Fin n, level.degrees[u]

theorem exact_ofRows (rows : Table n (List (Fin n × Rat) × Rat)) : (ofRows rows).Exact := by
  constructor
  case degree =>
    intro u
    rw [sum_weight]
    simp only [ofRows, Table.getElem_map]
    exact Scalar.foldl_add_rat Prod.snd _ _
  case total =>
    rw [← Table.sum_toList]
    exact Scalar.sum_rat _

/-- No row has an entry for its own node, and the matrix is symmetric. -/
structure Symmetric (level : Level n Rat) : Prop where
  loopless : ∀ u : Fin n, ∀ entry ∈ level.rows[u], entry.1 ≠ u
  symm : ∀ u v : Fin n, level.weight u v = level.weight v u

/-! ## The level of a graph -/

theorem exact_ofNetwork (steps : Network n Rat) : (ofNetwork steps).Exact :=
  exact_ofRows _

theorem loopless_ofNetwork (steps : Network n Rat) (u : Fin n) :
    ∀ entry ∈ (ofNetwork steps).rows[u], entry.1 ≠ u := by
  intro entry member
  simp only [ofNetwork, ofRows, splitRow, Table.getElem_map, Table.getElem_ofFn] at member
  exact of_decide_eq_true (List.mem_filter.1 member).2

/-- The matrix of a network has the weights of its steps. -/
theorem weight_ofNetwork (steps : Network n Rat) (u v : Fin n) :
    (ofNetwork steps).weight u v = weightTo (steps u) v := by
  have own : ∀ entry ∈ (steps u).filter fun step => step.1 = u, entry.1 = u :=
    fun entry member => of_decide_eq_true (List.mem_filter.1 member).2
  have others : ((steps u).filter fun step => step.1 ≠ u)
      = (steps u).filter fun step => !decide (step.1 = u) :=
    List.filter_congr fun step _ => by simp
  rw [← weightTo_filter_add (steps u) (fun step => step.1 = u), weightTo_of_all own, ← others]
  simp only [weight, ofNetwork, ofRows, splitRow, Table.getElem_map, Table.getElem_ofFn]
  rw [Scalar.foldl_add_rat, Scalar.zero_rat, zero_add]

end Community.Level

/-! ## Loaded graphs -/

namespace Graph

open Community.Level

variable {g : Graph Rat}

/-- The entries of relationships, when each of them counts what its id says. -/
def entries {n : Nat} (value : Nat → Rat) (relationships : List (Relationship n)) :
    List (Fin n × Rat) :=
  relationships.map fun r => (r.other, value r.id)

/-- What enters a node from another one has the weight of what leaves there for it. -/
theorem weightTo_arrivals (value : Nat → Rat) (u v : Fin g.size) :
    weightTo (entries value (g.arrivals u)) v
      = weightTo (entries value (g.relationships v .outgoing)) u := by
  have sources : entries value (g.arrivals u) = (List.finRange g.size).flatMap fun source =>
      ((entries value (g.relationships source .outgoing)).filter fun entry => entry.1 = u).map
        fun entry => (source, entry.2) := by
    rw [entries, arrivals, List.map_flatMap]
    congr 1
    funext source
    rw [entries, List.filter_map, List.map_map, List.map_map]
    rfl
  have part : ∀ source : Fin g.size,
      weightTo (((entries value (g.relationships source .outgoing)).filter fun entry => entry.1 = u).map
          fun entry => (source, entry.2)) v
        = if source = v then weightTo (entries value (g.relationships v .outgoing)) u else 0 := by
    intro source
    have single : ∀ entry ∈ ((entries value (g.relationships source .outgoing)).filter
        fun entry => entry.1 = u).map fun entry => (source, entry.2), entry.1 = source := by
      intro entry member
      obtain ⟨_, _, rfl⟩ := List.mem_map.1 member
      rfl
    rw [weightTo_of_all single, List.map_map]
    by_cases same : source = v
    · subst same
      rw [if_pos rfl, if_pos rfl]
      exact sum_filter_eq _ u
    · rw [if_neg same, if_neg same]
  rw [sources, weightTo_flatMap, List.map_congr_left fun source _ => part source, ← Fin.sum_univ_def,
    Finset.sum_ite_eq', if_pos (Finset.mem_univ v)]

/-- Followed both ways, relationships weigh at each of their ends what the outgoing lists say of both. -/
theorem Shows.weightTo_both {rows : Table g.size (List (Fin g.size))} (h : g.Shows rows)
    (value : Nat → Rat) (u v : Fin g.size) :
    weightTo (entries value (g.relationships u .both)) v
      = weightTo (entries value (g.relationships u .outgoing)) v
        + weightTo (entries value (g.relationships v .outgoing)) u := by
  have arriving : g.relationships u .incoming = g.arrivals u := by
    rw [h.relationships_incoming, h.arriving_eq_arrivals]
  rw [h.relationships_both, arriving, ← weightTo_arrivals value u v, ← weightTo_append]
  exact congrArg (weightTo · v) List.map_append

/-- Followed both ways, relationships of a loaded graph are a symmetric level, whatever each of them counts. -/
theorem Shows.symmetric {rows : Table g.size (List (Fin g.size))} (h : g.Shows rows)
    (value : Nat → Rat) :
    (ofNetwork fun u => entries value (g.relationships u .both)).Symmetric := by
  constructor
  case loopless => exact loopless_ofNetwork _
  case symm =>
    intro u v
    rw [weight_ofNetwork, weight_ofNetwork, h.weightTo_both, h.weightTo_both, add_comm]

/-- What a relationship counts in a search for communities. -/
def counted (g : Graph Rat) (weighted : Bool) (id : Nat) : Rat :=
  if weighted then g.weight id else 1

theorem level_eq (g : Graph Rat) (weighted : Bool) :
    ofGraph g weighted
      = ofNetwork fun u => entries (g.counted weighted) (g.relationships u .both) := by
  unfold ofGraph
  cases weighted with
  | true => rfl
  | false =>
    rw [if_neg Bool.false_ne_true]
    congr 1
    funext u
    rw [neighbours, List.map_map]
    rfl

theorem exact_level (g : Graph Rat) (weighted : Bool) : (ofGraph g weighted).Exact := by
  rw [level_eq]
  exact exact_ofNetwork _

/-- The level of a loaded graph is symmetric. -/
theorem Loaded.symmetric_level (loaded : g.Loaded) (weighted : Bool) :
    (ofGraph g weighted).Symmetric := by
  obtain ⟨storage, settings, source, loaded⟩ := loaded
  rw [level_eq]
  exact (Loading.stored_of_loadInto loaded).shows.symmetric _

end Graph

end NetworkAnalysis
