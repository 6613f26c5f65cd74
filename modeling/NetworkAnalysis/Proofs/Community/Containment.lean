import NetworkAnalysis.Proofs.Community.Levels
import NetworkAnalysis.Proofs.Community.Shrinking

/-!
# Communities stay within connected parts

The number of a community tells where it lies: it is the number of a node of the level, and every node that is in the
community is connected to that node. This holds of single nodes and spreads from neighbour to neighbour, also where all
members of a community leave it while another node enters. At the next level, nodes are joined only if members of their
communities were, so that connected nodes of any level stand for connected nodes of the graph (`Climb.Contained`).
-/

namespace NetworkAnalysis

open Relation (EqvGen)

/-- Nodes that a chain of relationships connects, each of them followed one way or the other. -/
def Graph.Linked {α : Type} [Scalar α] (g : Graph α) : Fin g.size → Fin g.size → Prop :=
  EqvGen fun u v => v ∈ g.neighbours .outgoing u

namespace Community

variable {n m k : Nat} {α : Type} [Scalar α]

/-! ## One level -/

variable {level : Level n α}

/-- After the passes of a level, a node is connected to the node that its community is called after. -/
theorem eqvGen_community (level : Level n α) (limits : Limits) (watch : Watch) (polls : Nat) (u : Fin n) :
    EqvGen level.Joins u (optimize limits watch polls level).state.community[u] := by
  let Near : MoveState n α → Nat → Nat → Prop := fun s _ _ => ∀ u : Fin n, EqvGen level.Joins u s.community[u]
  have start : Near (.singletons level) 0 0 := by
    intro u
    rw [community_singletons]
    exact .refl u
  have pass : ∀ s passes moves, Near s passes moves →
      Near (limits.pass level s).1 (passes + 1) (moves + (limits.pass level s).2) := by
    intro s _ _ near
    exact pass_spreads (fun u v c joins there => .trans u v c (.rel u v joins) there) limits near
  exact optimize_induct start pass watch polls u

/-- Members of one community are connected. -/
theorem eqvGen_of_renumbered (limits : Limits) (watch : Watch) (polls : Nat) {u v : Fin n}
    (same : let communities := renumber (optimize limits watch polls level).state.community
      communities.community[u] = communities.community[v]) : EqvGen level.Joins u v := by
  have together := (renumber_eq_iff _ u v).1 same
  have first := eqvGen_community level limits watch polls u
  have second := eqvGen_community level limits watch polls v
  rw [← together] at second
  exact .trans _ _ _ first (.symm _ _ second)

/-- Connected nodes of the coarse level stand for connected nodes, if every community is connected in itself. -/
theorem Level.eqvGen_of_coarsen {community : Table n (Fin k)} (onto : ∀ c : Fin k, ∃ u : Fin n, community[u] = c)
    (within : ∀ u v : Fin n, community[u] = community[v] → EqvGen level.Joins u v) {c d : Fin k}
    (chain : EqvGen (level.coarsen community).Joins c d) :
    ∀ u v : Fin n, community[u] = c → community[v] = d → EqvGen level.Joins u v := by
  induction chain with
  | rel c d joins =>
    obtain ⟨-, u', v', joined, rfl, rfl⟩ := Level.joins_coarsen_iff.1 joins
    intro u v first second
    exact .trans _ _ _ (within u u' first) (.trans _ _ _ (.rel _ _ joined) (within v' v second.symm))
  | refl c =>
    intro u v first second
    exact within u v (first.trans second.symm)
  | symm c d _ ih =>
    intro u v first second
    exact .symm _ _ (ih v u second first)
  | trans c e d _ _ ih ih' =>
    -- The chain goes through a community, and on this level through one of its nodes.
    intro u v first second
    obtain ⟨w, middle⟩ := onto e
    exact .trans _ _ _ (ih u w first middle) (ih' w v middle second)

/-! ## Searches -/

namespace Climb

/-- Base nodes are connected if they stand for connected nodes of the level. -/
structure Contained (base : Level n α) (c : Climb n m α) : Prop where
  onto : c.Onto
  connected : ∀ u v : Fin n, EqvGen c.level.Joins c.place[u] c.place[v] → EqvGen base.Joins u v

theorem contained_start (base : Level n α) : (start base).Contained base := by
  have place : ∀ u : Fin n, (start base).place[u] = u := fun u => Table.getElem_ofFn id u
  refine ⟨onto_start base, fun u v chain => ?_⟩
  rw [place, place] at chain
  exact chain

theorem Contained.next {base : Level n α} {c : Climb n m α} (h : c.Contained base) (limits : Limits) (watch : Watch) :
    (c.next limits (optimize limits watch c.polls c.level)).Contained base := by
  refine ⟨h.onto.next limits _, fun u v chain => ?_⟩
  let communities := renumber (optimize limits watch c.polls c.level).state.community
  have place : ∀ u : Fin n, (c.next limits (optimize limits watch c.polls c.level)).place[u]
      = communities.community[c.place[u]] := fun u => Table.getElem_map _ c.place u
  rw [place, place] at chain
  have below : EqvGen c.level.Joins c.place[u] c.place[v] :=
    Level.eqvGen_of_coarsen (renumber_onto _) (fun _ _ => eqvGen_of_renumbered limits watch c.polls) chain _ _ rfl rfl
  exact h.connected u v below

end Climb

/-! ## Loaded graphs -/

/-- Nodes that are connected at the level of a loaded graph are connected by relationships. -/
theorem linked_of_level {g : Graph α} (loaded : g.Loaded) {weighted : Bool} {u v : Fin g.size}
    (chain : EqvGen (Level.ofGraph g weighted).Joins u v) : g.Linked u v := by
  induction chain with
  | rel u v joins =>
    rcases ((loaded.joins_level_iff weighted).1 joins).2 with forth | back
    · exact .rel u v forth
    · exact .symm v u (.rel v u back)
  | refl u => exact .refl u
  | symm u v _ ih => exact .symm u v ih
  | trans u w v _ _ ih ih' => exact .trans u w v ih ih'

/-- A node whose relationships all lead to itself is connected to no other node. -/
theorem eq_of_linked {g : Graph α} (loaded : g.Loaded) {u v : Fin g.size}
    (alone : ∀ w ∈ g.neighbours .both u, w = u) (chain : g.Linked v u) : v = u := by
  have closed : ∀ {a b : Fin g.size}, g.Linked a b → (a = u ↔ b = u) := by
    intro a b chain
    induction chain with
    | rel a b leads =>
      constructor
      · rintro rfl
        exact alone b (loaded.mem_neighbours_both_iff.2 (.inl leads))
      · rintro rfl
        exact alone a (loaded.mem_neighbours_both_iff.2 (.inr leads))
    | refl a => exact Iff.rfl
    | symm a b _ ih => exact ih.symm
    | trans a c b _ _ ih ih' => exact ih.trans ih'
  exact (closed chain).2 rfl

/-- Nodes that a search leaves in one community are connected by relationships, whatever their weights are. A node
that has no relationship to another one is alone in its community. -/
theorem detect_contained {g : Graph α} (loaded : g.Loaded) (settings : CommunitySettings) (workers : Option Nat)
    (watch : Watch) :
    let assignment := (detect g settings workers watch).value.assignment
    (∀ u v : Fin g.size, assignment[u] = assignment[v] → g.Linked u v)
      ∧ ∀ u : Fin g.size, (∀ v ∈ g.neighbours .both u, v = u) →
        ∀ v : Fin g.size, assignment[v] = assignment[u] → v = u := by
  let base := Level.ofGraph g settings.weighted
  let limits : Limits := ⟨settings.maxIterations, settings.maxLevels, workers⟩
  obtain ⟨k, last, completed, contained, run⟩ := Climb.run_optimize_induct limits watch
    (P := fun c => c.Contained base) (fun _ h => ⟨h.onto, h.connected⟩) (fun _ h => h.next limits watch)
    settings.maxLevels (.start base) (Climb.contained_start base)
  have found : (detect g settings workers watch).value = last.found :=
    congrArg (fun report => report.value) run
  have linked : ∀ u v : Fin g.size, last.found.assignment[u] = last.found.assignment[v] → g.Linked u v := by
    intro u v same
    have numbers : (last.place.map Fin.val)[u] = (last.place.map Fin.val)[v] := same
    rw [Table.getElem_map, Table.getElem_map] at numbers
    have together : last.place[u] = last.place[v] := Fin.ext numbers
    exact linked_of_level loaded (contained.connected u v (together ▸ .refl _))
  dsimp only
  rw [found]
  refine ⟨linked, ?_⟩
  intro u alone v same
  exact eq_of_linked loaded alone (linked v u same)

/-- Two workers that are stopped in the middle of the search have not mixed unconnected junctions. -/
theorem detect_contained_junctions : ∃ g : Graph Rat,
    Loading.loadInto .dense Loading.fiveByDefault Loading.junctions = .ok g ∧ g.Loaded
      ∧ let assignment := (detect g { weighted := true } (some 2) (.budget 1)).value.assignment
        (∀ u v : Fin g.size, assignment[u] = assignment[v] → g.Linked u v)
          ∧ ∀ u : Fin g.size, (∀ v ∈ g.neighbours .both u, v = u) →
            ∀ v : Fin g.size, assignment[v] = assignment[u] → v = u := by
  obtain ⟨g, loaded, -⟩ := Loading.exists_load_junctions .dense
  have isLoaded : g.Loaded := ⟨_, _, _, loaded⟩
  exact ⟨g, loaded, isLoaded, detect_contained isLoaded { weighted := true } (some 2) (.budget 1)⟩

end Community

end NetworkAnalysis
