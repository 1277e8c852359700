import OpBase.Graph.DepthFirst

/-!
# The breadth-first sort

`TopologicalSortBFS` looks a node up by its `topoId` in the list it is about to
replace, so it sorts only where `topoId` is the place in that list. There its loop is
the sweep of `Kahn` with a queue, over all links, those of a node to itself included:
a node on a cycle, a self edge being one, never comes to count zero.

> `topologicalSortBFS_length_iff`: the sort never reports a cycle; it keeps all nodes
> exactly if there is none.
>
> `topologicalSortBFS_sorts`: without cycles and self edges it is a topological sort.
-/

namespace OpBase.Graph

open Lib Lib.Kahn List

theorem toInt_eq {i : Nat} (h : i < 2 ^ 31) : toInt i = i := by
  unfold toInt
  rw [Int.bmod_eq_of_le_mul_two (by omega) (by omega)]
  exact Int.toNat_natCast i

namespace KernelGraph

/-- The state in which the breadth-first sort looks up the nodes it means. -/
structure Placed (g : KernelGraph) : Prop where
  inside : g.LinksInside
  topoId : ∀ i n, g.kernelNodes[i]? = some n → (g.nodes n).topoId = i
  size : g.kernelNodes.length ≤ 2 ^ 31

variable {g : KernelGraph}

theorem Placed.nodup (h : g.Placed) : g.kernelNodes.Nodup :=
  nodup_of_place fun i n => h.topoId i n

theorem Placed.closed (h : g.Placed) :
    Kahn.Closed g.kernelNodes (successors g.nodes) := ⟨h.nodup, h.inside⟩

theorem Placed.peerTopoIds_eq (h : g.Placed) {n : Nat} (hn : n ∈ g.kernelNodes) :
    peerTopoIds g.nodes n = (successors g.nodes n).map g.kernelNodes.idxOf := by
  unfold peerTopoIds successors
  rw [map_flatMap]
  refine flatMap_congr fun t ht => map_congr_left fun v hv => ?_
  have hin := h.inside n hn v (mem_successors.mpr ⟨t, ht, hv⟩)
  exact h.topoId _ v (getElem?_idxOf hin)

theorem Placed.map_toInt (h : g.Placed) {v n : Nat} (hn : g.kernelNodes[v]? = some n) :
    (peerTopoIds g.nodes n).map toInt = byIndex g.kernelNodes (successors g.nodes) v := by
  have hmem := mem_of_getElem? hn
  rw [h.peerTopoIds_eq hmem, mem_byIndex hn]
  refine (map_congr_left fun i hi => ?_).trans (map_id _)
  obtain ⟨w, hw, rfl⟩ := mem_map.mp hi
  have hlt := idxOf_lt_length_iff.mpr (h.inside n hmem w hw)
  exact toInt_eq (Nat.lt_of_lt_of_le hlt h.size)

/-- By induction on the fuel: the loop over nodes is the sweep over their places. -/
theorem bfsLoop_sweep (h : g.Placed) : ∀ (fuel : Nat) {s : Sweep},
    Sound (byIndex g.kernelNodes (successors g.nodes)) g.kernelNodes.length (fun _ => 0) s →
    g.kernelNodes.length ≤ s.order.length + fuel →
    bfsLoop g.nodes g.kernelNodes (fuel + 1) s.deg s.work (names g.kernelNodes s.order) =
      some (names g.kernelNodes (sweep (fun v w => w ++ [v])
        (byIndex g.kernelNodes (successors g.nodes)) fuel s).order)
  | 0, s, hs, hlen => by
    -- No fuel left means every node is placed, and then nothing can be on the queue.
    have hwork : s.work = [] := sweep_work append_perm (fun _ => Int.le_refl 0) h.closed.byIndex_lt
      0 hs hlen
    rw [hwork]
    rfl
  | fuel + 1, ⟨deg, work, order⟩, hs, hlen => by
    match work, hs with
    | [], hs => rfl
    | v :: work, hs =>
      have hv : v < g.kernelNodes.length := hs.frontier.lt v (by simp)
      have hnode := getElem?_eq_getElem hv
      have hrec := bfsLoop_sweep h fuel
        (hs.step append_perm (fun _ => Int.le_refl 0) h.closed.byIndex_lt)
        (by simp only [length_append, length_singleton] at *; omega)
      rw [names_concat hnode] at hrec
      unfold bfsLoop
      simp only [hnode, h.map_toInt hnode]
      exact hrec

/-- What `TopologicalSortBFS` does: it replaces the nodes by those a sweep reaches. -/
theorem Placed.topologicalSortBFS_spec (h : g.Placed) :
    ∃ deg, Counts (byIndex g.kernelNodes (successors g.nodes)) g.kernelNodes.length
        (fun _ => 0) deg ∧
      let sorted := names g.kernelNodes (sweep (fun v w => w ++ [v])
        (byIndex g.kernelNodes (successors g.nodes)) g.kernelNodes.length
          ⟨deg, ready g.kernelNodes.length deg, []⟩).order
      g.topologicalSortBFS = some (.success,
        { g with kernelNodes := sorted, nodes := numberNodes g.nodes sorted }) := by
  have htargets : g.kernelNodes.flatMap (peerTopoIds g.nodes) =
      (g.kernelNodes.flatMap (successors g.nodes)).map g.kernelNodes.idxOf := by
    rw [map_flatMap]
    exact flatMap_congr fun n hn => h.peerTopoIds_eq hn
  -- Every peer counted is at its own index, so no count is made out of range.
  obtain ⟨deg, hrun, hlen, hcount⟩ := increments (g.kernelNodes.flatMap (peerTopoIds g.nodes))
    (List.replicate g.kernelNodes.length 0) fun t ht => by
      rw [htargets, mem_map] at ht
      obtain ⟨v, hv, rfl⟩ := ht
      obtain ⟨u, hu, hv⟩ := mem_flatMap.mp hv
      rw [length_replicate]
      exact idxOf_lt_length_iff.mpr (h.inside u hu v hv)
  rw [length_replicate] at hlen hcount
  have hcounts : Counts (byIndex g.kernelNodes (successors g.nodes)) g.kernelNodes.length
      (fun _ => 0) deg := by
    refine ⟨hlen, fun v hv => ?_⟩
    have hzero : (List.replicate g.kernelNodes.length (0 : Int)).getD v 0 = 0 := by
      rw [getD_eq_getElem?_getD, getElem?_replicate, if_pos hv]
      rfl
    rw [hcount v hv, htargets, hzero, pending_byIndex]
  refine ⟨deg, hcounts, ?_⟩
  dsimp only
  -- A sweep places a node each round: as many rounds as nodes are enough fuel.
  have hloop := bfsLoop_sweep h g.kernelNodes.length hcounts.sound (Nat.le_add_left ..)
  unfold topologicalSortBFS
  simp only [hrun]
  have hnil : names g.kernelNodes [] = [] := rfl
  rw [hnil] at hloop
  rw [hloop]
  rfl

/-- Kahn's algorithm always succeeds, and it keeps every node just when no node leads back to
itself; the others are dropped without an error. -/
theorem Placed.topologicalSortBFS_length_iff (h : g.Placed) :
    ∃ g', g.topologicalSortBFS = some (.success, g') ∧
      (g'.kernelNodes.length = g.kernelNodes.length ↔ g.LoopFree) := by
  obtain ⟨deg, hcounts, hrun⟩ := h.topologicalSortBFS_spec
  have hswept := hcounts.swept append_perm (fun _ => Int.le_refl 0) h.closed.byIndex_lt
  refine ⟨_, hrun, ?_⟩
  dsimp only
  rw [names_length h.nodup hswept.lt, hswept.order_length_iff (fun _ => Int.le_refl 0)
    h.closed.byIndex_lt, h.closed.acyclic_iff]
  exact ⟨fun hall => hall.2, fun hfree => ⟨fun _ _ => rfl, hfree⟩⟩

/-- Without a cycle the nodes are sorted breadth first, and numbered. -/
theorem Placed.topologicalSortBFS_sorts (h : g.Placed) (hfree : g.LoopFree) :
    ∃ sorted, g.topologicalSortBFS = some (.success,
        { g with kernelNodes := sorted, nodes := numberNodes g.nodes sorted }) ∧
      sorted.Perm g.kernelNodes ∧ sorted.Nodup ∧
      (∀ u v, g.Edge u v → sorted.idxOf u < sorted.idxOf v) ∧
      (∀ i n, sorted[i]? = some n → (numberNodes g.nodes sorted n).topoId = i) ∧
      ∀ order, NamedBreadthFirst g.kernelNodes (successors g.nodes) order → sorted = order := by
  obtain ⟨deg, hcounts, hrun⟩ := h.topologicalSortBFS_spec
  have hswept := hcounts.swept append_perm (fun _ => Int.le_refl 0) h.closed.byIndex_lt
  have hlen := (hswept.order_length_iff (fun _ => Int.le_refl 0) h.closed.byIndex_lt).mpr
    ⟨fun _ _ => rfl, h.closed.acyclic_iff.mpr hfree⟩
  obtain ⟨hperm, hbefore⟩ := named_sorted h.closed hswept hlen
  have hnd := hperm.nodup_iff.mpr h.nodup
  refine ⟨_, hrun, hperm, hnd, hbefore, fun i n hn => ?_, fun order ho => ?_⟩
  · have hplace := numberFrom_topoId g.nodes 0 hnd i n hn
    rw [Nat.zero_add] at hplace
    exact hplace
  · exact named_queue h.closed hfree hcounts ho

end KernelGraph

end OpBase.Graph
