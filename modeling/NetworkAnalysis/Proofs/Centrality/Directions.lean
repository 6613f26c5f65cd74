import NetworkAnalysis.Proofs.Centrality.Betweenness

/-!
# Betweenness in the three directions

Against the relationships every shortest path leads back, from its target to its source, so that all scores
stay as they are. Where as many relationships lead from one node to another as back, each of them is followed
twice both ways: a walk of `k` relationships counts `2 ^ k` times, and shares are quotients of such counts. What
leads from a node to itself may be repeated at will, since no shortest path contains it.
-/

namespace NetworkAnalysis.Centrality

variable {n : Nat}

/-! ## Repeated steps -/

section Walks

variable {neighbours double : Fin n → List (Fin n)}
  (twice : ∀ u v, u ≠ v → (double u).count v = 2 * (neighbours u).count v)

include twice

/-- A walk counts double for each of its steps where there is no shorter one. -/
theorem walkCount_doubled (k : Nat) (u v : Fin n) (sooner : ∀ j < k, walkCount neighbours j u v = 0) :
    walkCount double k u v = 2 ^ k * walkCount neighbours k u v := by
  induction k generalizing u with
  | zero => simp [walkCount]
  | succ k ih =>
    rw [walkCount_succ, walkCount_succ, Finset.mul_sum]
    refine Finset.sum_congr rfl fun w _ => ?_
    by_cases same : u = w
    · -- A step on the spot begins no shortest walk, however often it can be taken.
      subst same
      have short : walkCount neighbours k u v = 0 := sooner k (Nat.lt_succ_self k)
      rw [ih u fun j less => sooner j (by omega), short]
      simp
    by_cases step : w ∈ neighbours u
    · have sooner' : ∀ j < k, walkCount neighbours j w v = 0 := by
        intro j less
        by_contra walk
        exact walkCount_add_ne_zero (walkCount_one_ne_zero step) walk (sooner (1 + j) (by omega))
      rw [twice u w same, ih w sooner', Nat.pow_succ]
      ring
    · rw [twice u w same, List.count_eq_zero_of_not_mem step]
      simp

theorem Hops.doubled {u v : Fin n} {k : Nat} (h : Hops neighbours u v k) : Hops double u v k := by
  constructor
  · rw [walkCount_doubled twice k u v h.least]
    exact Nat.mul_ne_zero (Nat.pos_iff_ne_zero.1 (Nat.two_pow_pos k)) h.walk
  · intro j less
    rw [walkCount_doubled twice j u v fun i less' => h.least i (by omega), h.least j less, Nat.mul_zero]

theorem hops_doubled_iff {u v : Fin n} {k : Nat} : Hops double u v k ↔ Hops neighbours u v k := by
  refine ⟨fun h => ?_, fun h => h.doubled twice⟩
  obtain ⟨j, walk⟩ : ∃ j, walkCount neighbours j u v ≠ 0 := by
    by_contra walkless
    push Not at walkless
    exact h.walk (by rw [walkCount_doubled twice k u v fun j _ => walkless j, walkless, Nat.mul_zero])
  obtain ⟨i, hops⟩ := Hops.exists_of_walk walk
  rwa [h.unique (hops.doubled twice)]

end Walks

/-! ## Shares -/

section Shares

variable {steps double : Fin n → List (Relationship n)}
  (twice : ∀ u v, u ≠ v → (farEnds double u).count v = 2 * (farEnds steps u).count v)

include twice

theorem connected_doubled_iff {source target : Fin n} :
    Connected double source target ↔ Connected steps source target := by
  simp only [connected_iff, hops_doubled_iff twice]

/-- The shortest paths through a node and all of them are repeated equally often. -/
theorem countP_passes_doubled {source node target : Fin n} {k : Nat}
    (target' : Hops (farEnds steps) source target k) (other : source ≠ node) :
    (shortestPaths double source target).countP (passes node)
      = 2 ^ k * (shortestPaths steps source target).countP (passes node) := by
  have repeated := target'.doubled twice
  by_cases near : ∃ j ≤ k, Hops (farEnds steps) source node j
  · obtain ⟨j, le, node'⟩ := near
    have sooner : ∀ i < k - j, walkCount (farEnds steps) i node target = 0 := by
      intro i less
      by_contra walk
      have := target'.le (walkCount_add_ne_zero node'.walk walk)
      omega
    rw [countP_passes repeated (node'.doubled twice) other le, countP_passes target' node' other le,
      walkCount_doubled twice j source node node'.least, walkCount_doubled twice (k - j) node target sooner]
    calc 2 ^ j * walkCount (farEnds steps) j source node
          * (2 ^ (k - j) * walkCount (farEnds steps) (k - j) node target)
      _ = 2 ^ (j + (k - j)) * (walkCount (farEnds steps) j source node
            * walkCount (farEnds steps) (k - j) node target) := by ring
      _ = _ := by rw [Nat.add_sub_cancel' le]
  · have far : ∀ j, Hops (farEnds steps) source node j → k < j :=
      fun j hops => Nat.lt_of_not_le fun le => near ⟨j, le, hops⟩
    rw [countP_passes_eq_zero target' far,
      countP_passes_eq_zero repeated fun j hops => far j ((hops_doubled_iff twice).1 hops), Nat.mul_zero]

theorem length_shortestPaths_doubled {source target : Fin n} {k : Nat}
    (hops : Hops (farEnds steps) source target k) :
    (shortestPaths double source target).length = 2 ^ k * (shortestPaths steps source target).length := by
  rw [shortestPaths_eq hops, shortestPaths_eq (hops.doubled twice), length_walksBetween, length_walksBetween,
    walkCount_doubled twice k source target hops.least]

theorem shareBetween_doubled (source target node : Fin n) :
    shareBetween double source target node = shareBetween steps source target node := by
  unfold shareBetween
  rw [connected_doubled_iff twice]
  split
  · next all =>
    obtain ⟨-, first, -, connected⟩ := all
    obtain ⟨k, hops⟩ := connected_iff.1 connected
    have nonzero : ((2 ^ k : Nat) : Rat) ≠ 0 := Nat.cast_ne_zero.2 (Nat.pos_iff_ne_zero.1 (Nat.two_pow_pos k))
    rw [share, share, countP_passes_doubled twice hops first, length_shortestPaths_doubled twice hops,
      Nat.cast_mul, Nat.cast_mul, mul_div_mul_left _ _ nonzero]
  · rfl

end Shares

/-! ## The scores -/

/-- The scores along the relationships are sums of shares, and those against them are the same. Where as many
relationships lead from one node to another as back, the scores both ways are a quarter of the sum of the two, or half
of either. -/
theorem betweenness_directions {g : Graph Rat} (loaded : g.Loaded) :
    (∀ direction, (betweenness g direction .always).completed = true)
      ∧ (∀ v : Fin g.size,
          (betweenness g .outgoing .always).value.values[v] = ∑ s, ∑ t, shareBetween (g.along .outgoing) s t v
            ∧ (betweenness g .incoming .always).value.values[v] = (betweenness g .outgoing .always).value.values[v])
      ∧ ((∀ u v : Fin g.size, u ≠ v →
            (g.neighbours .outgoing u).count v = (g.neighbours .outgoing v).count u) →
          ∀ v : Fin g.size,
            (betweenness g .both .always).value.values[v]
                = ((betweenness g .outgoing .always).value.values[v]
                  + (betweenness g .incoming .always).value.values[v]) / 4
              ∧ (betweenness g .both .always).value.values[v]
                = (betweenness g .outgoing .always).value.values[v] / 2) := by
  have values := fun direction => (betweenness_always loaded direction).2
  have along : ∀ v : Fin g.size, (betweenness g .outgoing .always).value.values[v]
      = ∑ s, ∑ t, shareBetween (g.along .outgoing) s t v :=
    fun v => (values .outgoing v).trans (div_one _)
  have mirrored : ∀ v : Fin g.size, (betweenness g .incoming .always).value.values[v]
      = (betweenness g .outgoing .always).value.values[v] := by
    intro v
    -- a path from `s` to `t` against the relationships is one from `t` to `s` along them
    calc (betweenness g .incoming .always).value.values[v]
      _ = ∑ s, ∑ t, shareBetween (g.along .incoming) s t v := (values .incoming v).trans (div_one _)
      _ = ∑ s, ∑ t, shareBetween (g.along .outgoing) t s v := by
        simp only [(reversed_incoming g).shareBetween_eq]
      _ = _ := by rw [Finset.sum_comm, along]
  have completed := fun direction => (betweenness_always loaded direction).1
  refine ⟨completed, fun v => ⟨along v, mirrored v⟩, fun balanced v => ?_⟩
  have twice : ∀ u v, u ≠ v →
      (farEnds (g.along .both) u).count v = 2 * (farEnds (g.along .outgoing) u).count v := by
    intro u v other
    rw [neighbours_eq_farEnds loaded] at balanced
    rw [count_along_both, ← balanced u v other, Nat.two_mul]
  have half : (betweenness g .both .always).value.values[v]
      = (betweenness g .outgoing .always).value.values[v] / 2 := by
    rw [values .both, along]
    simp [shareBetween_doubled twice]
  refine ⟨?_, half⟩
  rw [half, mirrored]
  ring

/-- Each of these four leads to another as often as back, 10 and 20 twice. From 30 a relationship leads to itself. -/
def avenues : Source Rat where
  declared := 4
  nodes := [10, 20, 30, 40]
  relationships
    | 10 => [(20, none), (20, none)]
    | 20 => [(30, none), (10, none), (10, none)]
    | 30 => [(30, none), (40, none), (20, none)]
    | _ => [(30, none)]

theorem betweenness_directions_avenues : ∃ g : Graph Rat,
    Loading.loadInto .huge Loading.fiveByDefault avenues = .ok g ∧ g.Loaded
      ∧ (∀ u v : Fin g.size, u ≠ v →
          (g.neighbours .outgoing u).count v = (g.neighbours .outgoing v).count u)
      ∧ ∀ v : Fin g.size, (betweenness g .both .always).value.values[v]
          = (betweenness g .incoming .always).value.values[v] / 2 := by
  have accepted : ∃ g : Graph Rat, Loading.loadInto .huge Loading.fiveByDefault avenues = .ok g
      ∧ g.ids.labels.toList = avenues.nodes :=
    Loading.exists_loadInto (by decide) (by decide) (by decide) (by decide)
      (fun _ unset => by cases unset) (by decide)
  obtain ⟨g, loaded, listed⟩ := accepted
  have isLoaded : g.Loaded := ⟨_, _, _, loaded⟩
  have keeps := (Loading.stored_of_loadInto loaded).keeps (by decide)
  have known : ∀ u : Fin g.size, g.ids.label u ∈ avenues.nodes :=
    fun u => listed ▸ IdMap.mem_labels_iff.2 ⟨u, rfl⟩
  have balanced : ∀ u v : Fin g.size, u ≠ v →
      (g.neighbours .outgoing u).count v = (g.neighbours .outgoing v).count u := by
    intro u v _
    rw [Graph.neighbours, Graph.neighbours, keeps.count_outgoing, keeps.count_outgoing]
    have listed : ∀ a ∈ avenues.nodes, ∀ b ∈ avenues.nodes,
        ((Loading.keptFrom avenues a).map Prod.fst).count b
          = ((Loading.keptFrom avenues b).map Prod.fst).count a := by decide
    exact listed _ (known u) _ (known v)
  obtain ⟨-, mirrored, both⟩ := betweenness_directions isLoaded
  refine ⟨g, loaded, isLoaded, balanced, fun v => ?_⟩
  rw [(mirrored v).2]
  exact (both balanced v).2

end NetworkAnalysis.Centrality
