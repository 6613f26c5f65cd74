import NetworkAnalysis.Proofs.Community.Levels
import NetworkAnalysis.Proofs.LoadFallback

/-!
# Modularity as it is defined

For the definition only the relationships count that lead from one node to another (`Graph.between`). They make up a
symmetric matrix, in which a self-loop counts twice, and every pair of nodes in one community adds its entry, less what
the sums of their rows let expect (`Graph.pairSum`). The level of a loaded graph has this matrix, so that this is the
modularity that is computed. Neither the numbers of the communities nor the order in which a storage lists
relationships have a part in it. All that it takes can be read off what the source lists (`Graph.listedBetween`).
-/

namespace NetworkAnalysis

open Community Community.Level

namespace Graph

variable {g : Graph Rat} {β : Type} [DecidableEq β]

/-- What the relationships from one node to another count together. -/
def between (g : Graph Rat) (weighted : Bool) (u v : Fin g.size) : Rat :=
  (((g.relationships u .outgoing).filter fun r => r.other = v).map fun r => g.counted weighted r.id).sum

/-- What the relationships between two nodes count together. -/
def joint (g : Graph Rat) (weighted : Bool) (u v : Fin g.size) : Rat :=
  if u = v then 2 * g.between weighted u u else g.between weighted u v + g.between weighted v u

theorem joint_eq (g : Graph Rat) (weighted : Bool) (u v : Fin g.size) :
    g.joint weighted u v = g.between weighted u v + g.between weighted v u := by
  unfold joint
  split
  · next same =>
    subst same
    exact two_mul _
  · rfl

/-- What all relationships of a node count together. -/
def strength (g : Graph Rat) (weighted : Bool) (u : Fin g.size) : Rat :=
  ∑ v, g.joint weighted u v

/-- What all relationships of all nodes count together. -/
def mass (g : Graph Rat) (weighted : Bool) : Rat :=
  ∑ u, g.strength weighted u

/-- The modularity of a labelling by pairs of nodes. -/
def pairSum (g : Graph Rat) (weighted : Bool) (label : Fin g.size → β) : Rat :=
  if g.mass weighted ≤ 0 then 0
  else 1 / g.mass weighted * ∑ u, ∑ v, if label u = label v then
    g.joint weighted u v - g.strength weighted u * g.strength weighted v / g.mass weighted else 0

theorem weightTo_outgoing (weighted : Bool) (u v : Fin g.size) :
    weightTo (entries (g.counted weighted) (g.relationships u .outgoing)) v = g.between weighted u v := by
  rw [← sum_filter_eq, entries, List.filter_map, List.map_map]
  rfl

/-! ## The level of a graph -/

section Level

variable (shown : ∃ rows, g.Shows rows) (weighted : Bool)
include shown

theorem weight_level (u v : Fin g.size) : (ofGraph g weighted).weight u v = g.joint weighted u v := by
  obtain ⟨rows, shows⟩ := shown
  rw [level_eq, weight_ofNetwork, shows.weightTo_both, weightTo_outgoing, weightTo_outgoing, joint_eq]

theorem degrees_level (u : Fin g.size) : (ofGraph g weighted).degrees[u] = g.strength weighted u := by
  rw [(g.exact_level weighted).degree, strength]
  exact Finset.sum_congr rfl fun v _ => weight_level shown weighted u v

theorem total_level : (ofGraph g weighted).total = g.mass weighted := by
  rw [(g.exact_level weighted).total, mass]
  exact Finset.sum_congr rfl fun u _ => degrees_level shown weighted u

theorem quality_level (label : Fin g.size → β) : (ofGraph g weighted).quality label = g.pairSum weighted label := by
  unfold quality pairSum surplus
  simp only [total_level shown, degrees_level shown, weight_level shown, Finset.mul_sum, mul_ite, mul_zero,
    one_div_mul_eq_div]

end Level

/-! ## What a source lists -/

/-- What the entries that a source lists from one label to another count together. -/
def listedBetween (settings : LoadSettings Rat) (source : Source Rat) (weighted : Bool) (a b : Nat) : Rat :=
  (((Loading.keptFrom source a).filter fun entry => entry.1 = b).map fun entry =>
    if weighted then (Loading.weightGiven settings entry.2).getD 1 else 1).sum

/-- What the entries of a label count together, those that lead to it included. -/
def listedStrength (settings : LoadSettings Rat) (source : Source Rat) (weighted : Bool) (a : Nat) : Rat :=
  (source.nodes.map fun b =>
    listedBetween settings source weighted a b + listedBetween settings source weighted b a).sum

section Listed

variable {settings : LoadSettings Rat} {source : Source Rat} (keeps : Loading.Keeps settings source g) (weighted : Bool)
include keeps

theorem between_listed (u v : Fin g.size) :
    g.between weighted u v = listedBetween settings source weighted (g.ids.label u) (g.ids.label v) := by
  have kept := (((keeps.outgoing u).filter fun entry => entry.1 = g.ids.label v).map fun entry =>
    if weighted then entry.2.getD 1 else 1).sum_eq
  rw [List.filter_map, List.map_map, List.filter_map, List.map_map] at kept
  simp only [Function.comp_def, g.ids.label_injective.eq_iff] at kept
  exact kept

theorem joint_listed (u v : Fin g.size) :
    g.joint weighted u v = listedBetween settings source weighted (g.ids.label u) (g.ids.label v)
      + listedBetween settings source weighted (g.ids.label v) (g.ids.label u) := by
  rw [joint_eq, between_listed keeps, between_listed keeps]

/-- A sum over the nodes is a sum over the labels that are listed. -/
theorem sum_listed (f : Nat → Rat) : ∑ v : Fin g.size, f (g.ids.label v) = (source.nodes.map f).sum := by
  rw [← keeps.labels, ← g.ids.map_label_finRange, List.map_map, Fin.sum_univ_def]
  rfl

theorem strength_listed (u : Fin g.size) :
    g.strength weighted u = listedStrength settings source weighted (g.ids.label u) := by
  simp only [strength, joint_listed keeps, listedStrength]
  exact sum_listed keeps fun b => listedBetween settings source weighted (g.ids.label u) b
    + listedBetween settings source weighted b (g.ids.label u)

theorem mass_listed : g.mass weighted = (source.nodes.map (listedStrength settings source weighted)).sum := by
  simp only [mass, strength_listed keeps]
  exact sum_listed keeps (listedStrength settings source weighted)

end Listed

/-! ## Other storages -/

/-- What leads from one node to another is what the links of the source count. -/
theorem between_of_stored {storage : Storage} {settings : LoadSettings Rat} {source : Source Rat}
    (stored : Loading.Stored storage settings source g) (weighted : Bool) (u v : Fin g.size) :
    g.between weighted u v
      = (((Loading.links source g.ids u).filter fun link => link.target = v).map fun link =>
          if weighted then link.value settings else 1).sum := by
  have leaving := stored.map_outgoing u Prod.mk
  calc g.between weighted u v
    _ = ((((g.relationships u .outgoing).map fun r => (r.other, g.weight? r.id)).filter
          fun entry => entry.1 = v).map fun entry => if weighted then entry.2.getD Scalar.one else 1).sum := by
      rw [List.filter_map, List.map_map]
      rfl
    _ = (((Loading.arrange storage (Loading.links source g.ids u)).filter fun link => link.target = v).map
          fun link => if weighted then link.value settings else 1).sum := by
      rw [leaving, List.filter_map, List.map_map]
      rfl
    _ = _ := (((Loading.perm_arrange storage _).filter _).map _).sum_eq

/-- A graph that another storage holds has the modularity of this one. -/
theorem modularity_of_stored {storage storage' : Storage} {settings : LoadSettings Rat} {source : Source Rat}
    {g h : Graph Rat} (stored : Loading.Stored storage settings source g)
    (stored' : Loading.Stored storage' settings source h) (communities : Array Nat) (weighted : Bool) :
    modularity h communities weighted = modularity g communities weighted := by
  have present : h.weighted = g.weighted := stored'.weighted_eq.trans stored.weighted_eq.symm
  have same : h.ids = g.ids := Except.ok.inj (stored'.ids.symm.trans stored.ids)
  obtain ⟨ids, adjacency, weights⟩ := h
  obtain rfl : ids = g.ids := same
  have joint : ∀ u v : Fin g.size,
      Graph.joint ⟨g.ids, adjacency, weights⟩ weighted u v = g.joint weighted u v := by
    intro u v
    unfold Graph.joint
    simp only [between_of_stored stored, between_of_stored stored']
  have level : ∀ assignment : Assignment g.size,
      (ofGraph ⟨g.ids, adjacency, weights⟩ weighted).modularity assignment.community
        = (ofGraph g weighted).modularity assignment.community := by
    intro assignment
    rw [modularity_eq_quality, modularity_eq_quality, quality_level ⟨_, stored.shows⟩,
      quality_level ⟨_, stored'.shows⟩]
    unfold pairSum mass strength
    simp only [joint]
  unfold Community.modularity
  simp only [present, level]

end Graph

/-! ## Accepted assignments -/

namespace Community

open Loading

variable {g : Graph Rat} {communities : Array Nat} {weighted : Bool}

theorem covers_of_readAssignment {n : Nat} {assignment : Assignment n}
    (read : readAssignment n communities = .ok assignment) : communities.size = n ∧ ∀ c ∈ communities, c < n := by
  unfold readAssignment at read
  split at read
  · next covers =>
    split at read
    · cases read
    · next below =>
      refine ⟨covers, fun c member => ?_⟩
      obtain ⟨node, inside, rfl⟩ := Array.getElem_of_mem member
      exact lt_of_outOfRange?_eq_none below node inside
  · cases read

/-- Where the numbers are accepted, the modularity is known unless weights are missing. -/
theorem modularity_of_covers (covers : communities.size = g.size) (below : ∀ c ∈ communities, c < g.size) :
    modularity g communities weighted
      = if weighted = true ∧ g.weighted = false then .error (.missingWeights "modularity")
        else .ok ((ofGraph g weighted).quality fun u : Fin g.size => communities[u.val]?) := by
  have listed : communities = Array.ofFn fun u : Fin g.size => communities[u.val] :=
    Array.ext (by simp [covers]) (by simp)
  obtain ⟨assignment, read, shared⟩ := readAssignment_ofFn fun u : Fin g.size =>
    below communities[u.val] (Array.getElem_mem _)
  have same : ∀ u v : Fin g.size, assignment.community[u] = assignment.community[v]
      ↔ communities[u.val]? = communities[v.val]? := by
    intro u v
    rw [shared]
    simp [covers]
  rw [← listed] at read
  unfold modularity
  rw [read, ← Level.quality_congr _ same, ← Level.modularity_eq_quality]
  cases weighted <;> cases g.weighted <;> rfl

theorem modularity_eq_ok_iff {q : Rat} :
    modularity g communities weighted = .ok q
      ↔ (communities.size = g.size ∧ (∀ c ∈ communities, c < g.size) ∧ (weighted = true → g.weighted = true))
        ∧ q = (ofGraph g weighted).quality fun u : Fin g.size => communities[u.val]? := by
  constructor
  · intro found
    obtain ⟨covers, below⟩ : communities.size = g.size ∧ ∀ c ∈ communities, c < g.size := by
      cases read : readAssignment g.size communities with
      | error e =>
        unfold modularity at found
        rw [read] at found
        cases found
      | ok assignment => exact covers_of_readAssignment read
    rw [modularity_of_covers covers below] at found
    split at found
    · cases found
    · next usable =>
      exact ⟨⟨covers, below, fun asked => by simpa [asked] using usable⟩, (Except.ok.inj found).symm⟩
  · rintro ⟨⟨covers, below, usable⟩, rfl⟩
    rw [modularity_of_covers covers below, if_neg]
    rintro ⟨asked, missing⟩
    exact absurd (usable asked) (by simp [missing])

/-- Numbers in range may be exchanged for others, as long as the same nodes share one. -/
theorem modularity_map {rename : Nat → Nat} (injective : Set.InjOn rename {c | c ∈ communities})
    (below : ∀ c ∈ communities, c < g.size) (below' : ∀ c ∈ communities, rename c < g.size) :
    modularity g (communities.map rename) weighted = modularity g communities weighted := by
  by_cases covers : communities.size = g.size
  · have same : ∀ u v : Fin g.size, (communities.map rename)[u.val]? = (communities.map rename)[v.val]?
        ↔ communities[u.val]? = communities[v.val]? := by
      intro u v
      simp only [Array.getElem?_map, covers, u.isLt, v.isLt, getElem?_pos, Option.map_some, Option.some.injEq]
      exact injective.eq_iff (Array.getElem_mem _) (Array.getElem_mem _)
    rw [modularity_of_covers covers below, modularity_of_covers (by simpa using covers) (by simpa using below'),
      Level.quality_congr _ same]
  · unfold modularity readAssignment
    rw [dif_neg covers, dif_neg (by simpa using covers), Array.size_map]

/-- An assignment is accepted if it gives each node a number below the number of nodes, and the weights that it asks
for were loaded. Its modularity is then that of the definition by pairs of nodes. It stays the same, or is refused
alike, when the numbers are exchanged for other ones in range, and when the graph is loaded with another storage. -/
theorem modularity_by_pairs {settings : LoadSettings Rat} {source : Source Rat} (loaded : load settings source = .ok g)
    (communities : Array Nat) (weighted : Bool) :
    (∀ q, modularity g communities weighted = .ok q
        ↔ (communities.size = g.size ∧ (∀ c ∈ communities, c < g.size) ∧ (weighted = true → g.weighted = true))
          ∧ q = g.pairSum weighted fun u => communities[u.val]?)
      ∧ (∀ rename : Nat → Nat, Set.InjOn rename {c | c ∈ communities} → (∀ c ∈ communities, c < g.size) →
          (∀ c ∈ communities, rename c < g.size) →
          modularity g (communities.map rename) weighted = modularity g communities weighted)
      ∧ ∀ backend h, load { settings with backend } source = .ok h →
          modularity h communities weighted = modularity g communities weighted := by
  obtain ⟨storage, here⟩ := exists_loadInto_of_load loaded
  have stored := stored_of_loadInto here
  refine ⟨fun q => ?_, fun rename injective below below' => modularity_map injective below below', ?_⟩
  · rw [modularity_eq_ok_iff, Graph.quality_level ⟨_, stored.shows⟩]
  · intro backend h loaded'
    obtain ⟨storage', there⟩ := exists_loadInto_of_load loaded'
    -- No part of what is stored depends on the choice of the storage.
    have stored' : Stored storage' settings source h := by
      obtain ⟨ids, shows, weights⟩ := stored_of_loadInto there
      exact ⟨ids, shows, weights⟩
    exact Graph.modularity_of_stored stored stored' communities weighted

/-- Communities of the junctions under sparse numbers, renamed, and with the dense storage in place of the huge one. -/
theorem modularity_by_pairs_junctions : ∃ g h : Graph Rat,
    load { fiveByDefault with backend := .huge } junctions = .ok g
      ∧ load { fiveByDefault with backend := .dense } junctions = .ok h
      ∧ modularity g #[3, 0, 3, 0] true = .ok (g.pairSum true fun u => (#[3, 0, 3, 0] : Array Nat)[u.val]?)
      ∧ modularity g #[1, 2, 1, 2] true = modularity g #[3, 0, 3, 0] true
      ∧ modularity h #[3, 0, 3, 0] true = modularity g #[3, 0, 3, 0] true := by
  obtain ⟨g, loaded, labels⟩ := exists_load_junctions .huge
  obtain ⟨h, loaded', -⟩ := exists_load_junctions .dense
  have size : g.size = 4 := congrArg List.length labels
  have weights : g.weighted = true := (stored_of_loadInto loaded).weighted_eq
  have here : load { fiveByDefault with backend := .huge } junctions = .ok g := by
    unfold load
    exact (loadInto_anyStorage .huge _ _).symm.trans loaded
  have there : load { fiveByDefault with backend := .dense } junctions = .ok h := by
    unfold load
    exact (loadInto_anyStorage .dense _ _).symm.trans loaded'
  obtain ⟨value, renamed, stored⟩ := modularity_by_pairs here #[3, 0, 3, 0] true
  refine ⟨g, h, here, there, ?_, ?_, stored .dense h there⟩
  · exact (value _).2 ⟨⟨size.symm, by simp [size], fun _ => weights⟩, rfl⟩
  · have same := renamed (fun c => if c = 3 then 1 else 2) (by simp [Set.InjOn]) (by simp [size]) (by simp [size])
    simpa using same

end Community

end NetworkAnalysis
