import OpBase.Graph.BreadthFirst
import OpBase.Graph.LifeTimes

/-!
# What a call changes

One lemma for each call of a kernel graph, saying what it does to the node lists and
to the links; the runs are argued from these.

`SetKernelNodes` appends to `sortedNodes_` and replaces `kernelNodes_`, and a
breadth-first sort drops the nodes it does not reach. `KeepsNodes` leaves such calls
out: nodes are set in an empty graph, and a breadth-first sort is asked for where it
loses none.

> `Listed.step`: a call that keeps its nodes leaves the two lists of one length.
-/

namespace OpBase.Graph

open List

open Function (update)
open Lib Lib.Kahn

namespace KernelGraph

/-- The call leaves the two node lists with the same nodes. -/
def KeepsNodes (g : KernelGraph) : Call → Prop
  | .setKernelNodes _ => g.kernelNodes = []
  | .topologicalSortBFS => g.Placed ∧ g.LoopFree
  | .getSortedKernelTensors .bfs => g.Placed ∧ g.LoopFree
  | _ => True

/-! ## Adding nodes -/

theorem addKernelNode_sameLinks (g : KernelGraph) (n : Nat) :
    SameLinks g.nodes (g.addKernelNode n).nodes := setIds_sameLinks _ _ _ _

theorem foldl_setKernelNode : ∀ (ps : List (Nat × Nat)) (g : KernelGraph),
    (ps.foldl setKernelNode g).sortedNodes = g.sortedNodes ++ ps.map Prod.fst ∧
      SameLinks g.nodes (ps.foldl setKernelNode g).nodes ∧
      (ps.foldl setKernelNode g).indegrees = g.indegrees ∧
      (ps.foldl setKernelNode g).sortedKernelTensors = g.sortedKernelTensors
  | [], g => ⟨(append_nil _).symm, SameLinks.refl _, rfl, rfl⟩
  | p :: ps, g => by
    obtain ⟨hsorted, hlinks, hdeg, htensors⟩ := foldl_setKernelNode ps (g.setKernelNode p)
    refine ⟨?_, (setIds_sameLinks _ _ _ _).trans hlinks, hdeg, htensors⟩
    rw [foldl_cons, hsorted]
    exact append_assoc _ [p.1] _

theorem setKernelNodes_frame (g : KernelGraph) (ns : List Nat) :
    (g.setKernelNodes ns).sortedNodes = g.sortedNodes ++ ns ∧
      SameLinks g.nodes (g.setKernelNodes ns).nodes ∧
      (g.setKernelNodes ns).indegrees = g.indegrees ∧
      (g.setKernelNodes ns).sortedKernelTensors = g.sortedKernelTensors := by
  have h := foldl_setKernelNode ns.zipIdx g
  rw [zipIdx_map_fst] at h
  exact h

/-! ## Linking -/

theorem addPeers_outputs (nodes : Nodes) (source target : Port) (a : Option AclTensor) (n : Nat) :
    (addPeers nodes source target a n).outputs =
      if n = source.node then (nodes n).outputs.modify source.index fun t =>
        { t with peers := t.peers ++ [target] }
      else (nodes n).outputs := by
  unfold addPeers
  by_cases hs : n = source.node
  · subst hs
    by_cases ht : source.node = target.node
    · simp [ht]
    · simp [Function.update_of_ne ht]
  · rw [if_neg hs]
    by_cases ht : n = target.node
    · subst ht
      simp [Function.update_of_ne hs]
    · simp [Function.update_of_ne hs, Function.update_of_ne ht]

theorem addPeers_output (nodes : Nodes) (source target : Port) (a : Option AclTensor) (n k : Nat) :
    ((addPeers nodes source target a n).outputs[k]? = (nodes n).outputs[k]?) ∨
      ∃ t, (nodes n).outputs[k]? = some t ∧
        (addPeers nodes source target a n).outputs[k]? =
          some { t with peers := t.peers ++ [target] } := by
  rw [addPeers_outputs]
  by_cases hs : n = source.node
  · rw [if_pos hs, getElem?_modify]
    by_cases hk : source.index = k
    · cases ht : (nodes n).outputs[k]? with
      | none => exact Or.inl (by simp)
      | some t => exact Or.inr ⟨t, rfl, by simp [hk]⟩
    · exact Or.inl (by simp [hk])
  · rw [if_neg hs]
    exact Or.inl rfl

/-- A link takes no successor away. -/
theorem addPeers_successors (nodes : Nodes) (source target : Port) (a : Option AclTensor)
    {n v : Nat}
    (h : v ∈ successors nodes n) : v ∈ successors (addPeers nodes source target a) n := by
  obtain ⟨t, ht, hv⟩ := mem_successors.mp h
  obtain ⟨k, hk⟩ := mem_iff_getElem?.mp ht
  rcases addPeers_output nodes source target a n k with hsame | ⟨t', ht', hnew⟩
  · exact mem_successors.mpr ⟨t, mem_of_getElem? (hsame.trans hk), hv⟩
  · obtain rfl : t' = t := Option.some.inj (ht'.symm.trans hk)
    refine mem_successors.mpr ⟨_, mem_of_getElem? hnew, ?_⟩
    unfold KernelTensor.consumers at hv ⊢
    rw [map_append]
    exact mem_append_left _ hv

theorem addPeers_refsSelf {nodes : Nodes} (source target : Port) (a : Option AclTensor)
    (h : RefsSelf nodes) : RefsSelf (addPeers nodes source target a) := by
  intro n t ht href
  obtain ⟨k, hk⟩ := mem_iff_getElem?.mp ht
  rcases addPeers_output nodes source target a n k with hsame | ⟨t', ht', hnew⟩
  · exact h n t (mem_of_getElem? (hsame.symm.trans hk)) href
  · obtain rfl : _ = t := Option.some.inj (hnew.symm.trans hk)
    have hself := h n t' (mem_of_getElem? ht') href
    unfold KernelTensor.consumers at hself ⊢
    rw [map_append]
    exact mem_append_left _ hself

variable {g g' : KernelGraph} {status : AclnnStatus} {sortType : SortType}

/-- Linking adds two peers, or changes nothing. -/
theorem link_eq_some {u v : Option Nat} {i j : Nat} (h : g.link u v i j = some (status, g')) :
    g' = g ∨ ∃ source target a, g' = { g with nodes := addPeers g.nodes source target a } := by
  unfold link at h
  split at h
  next u v =>
    split at h
    next => exact Or.inl (Prod.mk.inj (Option.some.inj h)).2.symm
    next =>
      split at h
      next => exact Or.inl (Prod.mk.inj (Option.some.inj h)).2.symm
      next =>
        split at h
        next => exact Or.inr ⟨_, _, _, (Prod.mk.inj (Option.some.inj h)).2.symm⟩
        next => exact absurd h (by simp)
  next => exact Or.inl (Prod.mk.inj (Option.some.inj h)).2.symm

/-! ## Sorting -/

theorem dfsLoop_length (K : List Nat) : ∀ (fuel : Nat) {f f' : DfsFrame} {status : AclnnStatus},
    dfsLoop K fuel f = some (status, f') → f'.sortedNodes.length = f.sortedNodes.length
  | 0, f, f', status, h => by simp [dfsLoop] at h
  | fuel + 1, f, f', status, h => by
    unfold dfsLoop at h
    split at h
    next => rw [← (Prod.mk.inj (Option.some.inj h)).2]
    next =>
      split at h
      next => rw [← (Prod.mk.inj (Option.some.inj h)).2]
      next =>
        rw [dfsLoop_length K fuel h]
        exact length_set ..

/-- Whatever the state, the depth-first sort leaves `kernelNodes_` alone. -/
theorem topologicalSortDFS_frame (h : g.topologicalSortDFS = some (status, g')) :
    g'.kernelNodes = g.kernelNodes ∧ g'.sortedNodes.length = g.sortedNodes.length ∧
      g'.sortedKernelTensors = g.sortedKernelTensors := by
  unfold topologicalSortDFS at h
  simp only [Option.bind_eq_bind, Option.bind_eq_some_iff] at h
  obtain ⟨⟨g₁, stack⟩, hcalc, ⟨st, f⟩, hloop, hret⟩ := h
  have hg₁ : g₁.kernelNodes = g.kernelNodes ∧ g₁.sortedNodes = g.sortedNodes ∧
      g₁.sortedKernelTensors = g.sortedKernelTensors := by
    unfold calcIndegrees at hcalc
    obtain ⟨indegrees, -, hpair⟩ := Option.map_eq_some_iff.mp hcalc
    rw [← (Prod.mk.inj hpair).1]
    exact ⟨rfl, rfl, rfl⟩
  have hlen := dfsLoop_length _ _ hloop
  dsimp only at hlen
  rw [hg₁.2.1] at hlen
  dsimp only at hret
  split at hret
  next =>
    rw [← (Prod.mk.inj (Option.some.inj hret)).2]
    exact ⟨hg₁.1, hlen, hg₁.2.2⟩
  next =>
    rw [← (Prod.mk.inj (Option.some.inj hret)).2]
    exact ⟨hg₁.1, hlen, hg₁.2.2⟩

/-- The life times are all that is written. -/
theorem calcLifeTimeAndSize_frame (g : KernelGraph) :
    g.calcLifeTimeAndSize.2.kernelNodes = g.kernelNodes ∧
      g.calcLifeTimeAndSize.2.sortedNodes = g.sortedNodes ∧
      g.calcLifeTimeAndSize.2.indegrees = g.indegrees ∧
      Timed g.nodes g.calcLifeTimeAndSize.2.nodes := by
  obtain ⟨xs, hplan⟩ := planNodes_spec (g.sortedNodes.take g.kernelNodes.length) ⟨g.nodes, []⟩
  exact ⟨rfl, rfl, rfl, hplan.timed⟩

/-- `GetSortedKernelTensors` sorts, and then drops the tensors or dates them. -/
theorem getSortedKernelTensors_eq_some (h : g.getSortedKernelTensors sortType = some (status, g')) :
    (g.kernelNodes = [] ∧ g' = g) ∨
      ∃ g₁, g.kernelNodes ≠ [] ∧ g.sortNodes sortType = some (status, g₁) ∧
        (g' = { g₁ with sortedKernelTensors := [] } ∨ g' = g₁.calcLifeTimeAndSize.2) := by
  obtain ⟨⟨ret, g₁⟩, hsort, hret⟩ := Option.map_eq_some_iff.mp h
  unfold sortKernelTensor at hsort
  split at hsort
  next hnil =>
    obtain ⟨rfl, rfl⟩ := Prod.mk.inj (Option.some.inj hsort)
    refine Or.inl ⟨hnil, ?_⟩
    simpa using (Prod.mk.inj hret).2.symm
  next hne =>
    obtain ⟨⟨ret', g₂⟩, hnodes, hpair⟩ := Option.map_eq_some_iff.mp hsort
    refine Or.inr ⟨g₂, hne, ?_⟩
    cases ret' with
    | success =>
      obtain ⟨rfl, rfl⟩ := Prod.mk.inj hpair
      obtain ⟨rfl, rfl⟩ := Prod.mk.inj hret
      exact ⟨hnodes, Or.inr rfl⟩
    | errInner =>
      obtain ⟨rfl, rfl⟩ := Prod.mk.inj hpair
      obtain ⟨rfl, rfl⟩ := Prod.mk.inj hret
      exact ⟨hnodes, Or.inl rfl⟩

/-! ## The node lists along a run -/

/-- The two node lists are of one length, and an empty graph has no tensors listed. -/
structure Listed (g : KernelGraph) : Prop where
  length : g.sortedNodes.length = g.kernelNodes.length
  empty : g.kernelNodes = [] → g.sortedKernelTensors = []

theorem Listed.frame (h : g.Listed) (hperm : g'.kernelNodes.Perm g.kernelNodes)
    (hlen : g'.sortedNodes.length = g.sortedNodes.length)
    (htensors : g'.kernelNodes = [] → g'.sortedKernelTensors = g.sortedKernelTensors) :
    g'.Listed := by
  refine ⟨by rw [hlen, h.length, hperm.length_eq], fun hnil => ?_⟩
  rw [htensors hnil]
  exact h.empty (List.Perm.eq_nil (hnil ▸ hperm.symm))

/-- Sorting keeps the nodes listed. -/
theorem Listed.sortNodes (h : g.Listed) (hc : sortType = .bfs → g.Placed ∧ g.LoopFree)
    (hrun : g.sortNodes sortType = some (status, g')) :
    g'.Listed ∧ g'.kernelNodes.Perm g.kernelNodes := by
  cases sortType with
  | dfs =>
    obtain ⟨hnodes, hlen, htensors⟩ := topologicalSortDFS_frame hrun
    have hperm : g'.kernelNodes.Perm g.kernelNodes := hnodes ▸ List.Perm.refl _
    exact ⟨h.frame hperm hlen fun _ => htensors, hperm⟩
  | bfs =>
    obtain ⟨hplaced, hfree⟩ := hc rfl
    obtain ⟨sorted, hsorts, hperm, -⟩ := hplaced.topologicalSortBFS_sorts hfree
    obtain ⟨-, rfl⟩ := Prod.mk.inj (Option.some.inj (hsorts.symm.trans hrun))
    exact ⟨h.frame hperm rfl fun _ => rfl, hperm⟩
  | userCustom =>
    obtain ⟨-, rfl⟩ := Prod.mk.inj (Option.some.inj hrun)
    exact ⟨h, List.Perm.refl _⟩
  | dfsWithRearrangement =>
    obtain ⟨-, rfl⟩ := Prod.mk.inj (Option.some.inj hrun)
    exact ⟨h, List.Perm.refl _⟩

/-- Every call that keeps the nodes keeps them listed. -/
theorem Listed.step {c : Call} (h : g.Listed) (hc : g.KeepsNodes c)
    (hstep : g.step c = some g') : g'.Listed := by
  cases c with
  | addKernelNode n =>
    obtain rfl := Option.some.inj hstep
    exact ⟨by simp [addKernelNode, h.length], fun hnil => by simp [addKernelNode] at hnil⟩
  | setKernelNodes ns =>
    obtain rfl := Option.some.inj hstep
    -- The new nodes are not in `sortedNodes_`, so the set may only replace no nodes at all.
    have hnil : g.kernelNodes = [] := hc
    obtain ⟨hnodes, -, -, htensors⟩ := g.setKernelNodes_frame ns
    have hsorted : g.sortedNodes = [] :=
      eq_nil_of_length_eq_zero (by rw [h.length, hnil]; rfl)
    refine ⟨?_, fun _ => htensors.trans (h.empty hnil)⟩
    rw [hnodes, hsorted]
    rfl
  | link u v i j =>
    obtain ⟨⟨status, g₁⟩, hlink, rfl⟩ := Option.map_eq_some_iff.mp hstep
    rcases link_eq_some hlink with rfl | ⟨source, target, a, rfl⟩
    · exact h
    · exact ⟨h.length, h.empty⟩
  | topologicalSortDFS =>
    obtain ⟨⟨status, g₁⟩, hrun, rfl⟩ := Option.map_eq_some_iff.mp hstep
    have hsort : g.sortNodes .dfs = some (status, g₁) := hrun
    have hdfs : SortType.dfs = .bfs → g.Placed ∧ g.LoopFree := fun h => nomatch h
    exact (h.sortNodes hdfs hsort).1
  | topologicalSortBFS =>
    obtain ⟨⟨status, g₁⟩, hrun, rfl⟩ := Option.map_eq_some_iff.mp hstep
    have hsort : g.sortNodes .bfs = some (status, g₁) := hrun
    exact (h.sortNodes (fun _ => hc) hsort).1
  | getSortedKernelTensors sortType =>
    obtain ⟨⟨status, g₁⟩, hrun, rfl⟩ := Option.map_eq_some_iff.mp hstep
    rcases getSortedKernelTensors_eq_some hrun with ⟨-, rfl⟩ | ⟨g₂, hne, hsort, hout⟩
    · exact h
    -- The sort ran, and the tensors are planned only if it succeeded.
    · obtain ⟨h₂, hperm⟩ := h.sortNodes (fun hbfs => by subst hbfs; exact hc) hsort
      have hne₂ : g₂.kernelNodes ≠ [] := fun hnil => hne (List.Perm.eq_nil (hnil ▸ hperm.symm))
      rcases hout with rfl | rfl
      · exact ⟨h₂.length, fun _ => rfl⟩
      · obtain ⟨hnodes, hsorted, -, -⟩ := g₂.calcLifeTimeAndSize_frame
        refine ⟨by rw [hnodes, hsorted]; exact h₂.length, fun hnil => absurd (hnodes ▸ hnil) hne₂⟩

end KernelGraph

end OpBase.Graph
