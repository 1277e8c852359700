import OpBase.Graph.Calls

/-!
# Depth-first sorting along a run

A depth-first sort leaves its table behind for the next one. After a successful sort
every entry is zero; after a failed one some are not, but then the graph has a cycle,
links are never taken away, and no later sort should succeed either. `Resumable` keeps
that, and the sort is right in every state where it holds and the numbers fit.

The exception is an output that feeds its own node and another one too: its other links
are counted and never released, and an acyclic graph is reported as a cycle.

> `topologicalSortDFS_sorts`: in every run that keeps its nodes and sorts depth first
> where `DfsReady`, the sort succeeds exactly on graphs that are acyclic without
> self edges, and then it is a topological sort.
-/

namespace OpBase.Graph

open List

open Function (update)
open Lib Lib.Kahn
open Option (map_eq_some_iff some.inj)

namespace KernelGraph

/-- `TopologicalSortDFS` succeeds exactly if the graph without self edges is acyclic,
and then `sortedNodes_` lists the nodes in an order the edges agree with, each
numbered by its place. -/
def SortsDepthFirst (g : KernelGraph) : Prop :=
  ∃ status g', g.topologicalSortDFS = some (status, g') ∧
    (status = .success ↔ g.Acyclic) ∧
    (status = .success →
      g'.sortedNodes.Perm g.kernelNodes ∧
      (∀ i n, g'.sortedNodes[i]? = some n → (g'.nodes n).topoId = i) ∧
      ∀ u v, g.Edge u v → u ≠ v → g'.sortedNodes.idxOf u < g'.sortedNodes.idxOf v)

/-- The depth-first sort may be asked for: the numbers fit, and if the graph is acyclic,
an output that feeds its own node feeds no other. -/
structure DfsReady (g : KernelGraph) : Prop extends Numbered g where
  unmixed : g.Acyclic → ∀ n ∈ g.kernelNodes, ∀ t ∈ (g.nodes n).outputs,
    n ∈ t.consumers → ∀ v ∈ t.consumers, v = n

/-- What the calls leave for the next depth-first sort. -/
structure Resumable (g : KernelGraph) : Prop extends Listed g where
  refs : RefsSelf g.nodes
  table : g.indegrees.length ≤ g.kernelNodes.length
  nonneg : ∀ i, 0 ≤ g.indegrees.getD i 0
  clean : g.Acyclic → ∀ i, g.indegrees.getD i 0 = 0

/-! ## One sort -/

variable {g : KernelGraph}

theorem Resumable.resized_getD (h : g.Resumable) (i : Nat) :
    g.resized.getD i 0 = g.indegrees.getD i 0 := by
  unfold resized
  rw [take_of_length_le h.table]
  by_cases hi : i < g.indegrees.length
  · rw [getD_append _ _ _ _ hi]
  · have hout : g.indegrees.getD i 0 = 0 := getD_eq_default _ _ (by omega)
    rw [getD_append_right _ _ _ _ (by omega), hout, getD_eq_getElem?_getD,
      getElem?_replicate]
    split <;> rfl

theorem Resumable.excess_nonneg (h : g.Resumable) (v : Nat) : 0 ≤ g.excess v := by
  unfold excess
  rw [h.resized_getD]
  have := h.nonneg v
  omega

theorem DfsReady.skipped_nil (h : g.DfsReady) (hacyclic : g.Acyclic) {n : Nat}
    (hn : n ∈ g.kernelNodes) : skipped g.nodes n = [] := by
  refine eq_nil_iff_forall_not_mem.mpr fun v hv => ?_
  obtain ⟨t, ht, hself, hv, hne⟩ := mem_skipped.mp hv
  exact hne (h.unmixed hacyclic n hn t ht hself v hv)

theorem DfsReady.excess_zero (h : g.DfsReady) (hres : g.Resumable)
    (hacyclic : g.Acyclic) (v : Nat) : g.excess v = 0 := by
  have hnil : g.kernelNodes.flatMap (skipped g.nodes) = [] :=
    flatMap_eq_nil_iff.mpr fun n hn => h.skipped_nil hacyclic hn
  unfold excess
  rw [hres.resized_getD, hres.clean hacyclic, hnil]
  rfl

theorem Numbered.released_of_edge (hg : g.Numbered) (hres : g.Resumable)
    (hzero : ∀ v < g.kernelNodes.length, g.excess v = 0) {u v : Nat} (he : g.Edge u v)
    (hne : u ≠ v) : NamedEdge g.kernelNodes (released g.nodes) u v := by
  refine ⟨he.1, (released_or_skipped he.2 hne).resolve_right fun hskip => ?_⟩
  have hin := hg.inside u he.1 v he.2
  have hexcess := hzero _ (idxOf_lt_length_iff.mpr hin)
  have hmem : g.kernelNodes.idxOf v ∈
      (g.kernelNodes.flatMap (skipped g.nodes)).map g.kernelNodes.idxOf :=
    mem_map_of_mem (mem_flatMap.mpr ⟨u, he.1, hskip⟩)
  have hcount := count_pos_iff.mpr hmem
  have hnonneg := hres.nonneg (g.kernelNodes.idxOf v)
  unfold excess at hexcess
  rw [hres.resized_getD] at hexcess
  omega

/-- A graph that is ready sorts producers first, or reports a cycle, and can be sorted again. -/
theorem DfsReady.sorts (h : g.DfsReady) (hres : g.Resumable) :
    ∃ status g', g.topologicalSortDFS = some (status, g') ∧ g'.Resumable ∧
      (status = .success ↔ g.Acyclic) ∧
      (status = .success →
        g'.sortedNodes.Perm g.kernelNodes ∧
        (∀ i n, g'.sortedNodes[i]? = some n → (g'.nodes n).topoId = i) ∧
        ∀ u v, g.Edge u v → u ≠ v → g'.sortedNodes.idxOf u < g'.sortedNodes.idxOf v) := by
  have hg := h.toNumbered
  have hr := hres.excess_nonneg
  obtain ⟨status, s, f, hrun, hswept, hsim, hstatus⟩ :=
    hg.topologicalSortDFS_spec hres.refs hres.length hr
  have hcomplete := hswept.order_length_iff hr hg.closed.byIndex_lt
  -- every node reached: no excess, so the released links are all edges, and they are in order
  have hsorted : s.order.length = g.kernelNodes.length →
      (names g.kernelNodes s.order).Perm g.kernelNodes ∧ ∀ u v, g.Edge u v → u ≠ v →
        (names g.kernelNodes s.order).idxOf u < (names g.kernelNodes s.order).idxOf v := by
    intro hlen
    obtain ⟨hperm, hbefore⟩ := named_sorted hg.closed hswept hlen
    exact ⟨hperm, fun u v he hne =>
      hbefore u v (hg.released_of_edge hres (hcomplete.mp hlen).1 he hne)⟩
  have hiff : s.order.length = g.kernelNodes.length ↔ g.Acyclic := by
    constructor
    · intro hlen
      exact acyclic_of_rank _ (hsorted hlen).2
    · intro hacyclic
      refine hcomplete.mpr ⟨fun v _ => h.excess_zero hres hacyclic v,
        hg.closed.acyclic_iff.mpr fun u hcycle => hacyclic u (hcycle.lift id fun a b hab => ?_)⟩
      exact ⟨⟨hab.1, (mem_released hab.2).1⟩, (mem_released hab.2).2⟩
  have hsame : ∀ u, successors f.nodes u = successors g.nodes u := fun u => by
    rw [← g.withRefs_successors u]
    unfold successors
    rw [hsim.outputs u]
  have hlisted : Listed { g with
      nodes := f.nodes, indegrees := s.deg, sortedNodes := f.sortedNodes } :=
    hres.toListed.frame (List.Perm.refl _) (hsim.length.trans hres.length.symm) fun _ => rfl
  refine ⟨status, _, hrun, ⟨hlisted, ?_, ?_, hswept.deg_nonneg hr, ?_⟩, hstatus.trans hiff, ?_⟩
  · intro n t ht href
    rw [hsim.outputs n] at ht
    exact hg.withRefs_refsSelf hres.refs n t ht href
  · exact Nat.le_of_eq hswept.frontier.length
  · intro hacyclic i
    have hacyclic' : g.Acyclic := hacyclic.mono fun u v he => ⟨he.1, (hsame u).symm ▸ he.2⟩
    by_cases hi : i < g.kernelNodes.length
    · have hmem : i ∈ s.order :=
        (hswept.perm_iff.mpr (hiff.mpr hacyclic')).mem_iff.mpr (mem_range.mpr hi)
      exact (hswept.frontier.zero i hi).mpr (mem_append_left _ hmem)
    · exact getD_eq_default _ _ (by rw [hswept.frontier.length]; omega)
  · intro hsuccess
    have hlen := hstatus.mp hsuccess
    have hnodes : f.sortedNodes = names g.kernelNodes s.order := by
      rw [← hsim.sorted, hlen, ← hsim.length, take_length]
    dsimp only
    rw [hnodes]
    exact ⟨(hsorted hlen).1, hsim.topoId, (hsorted hlen).2⟩

/-! ## One call -/

theorem Resumable.frame {g g' : KernelGraph} (h : g.Resumable) (hlisted : g'.Listed)
    (hlinks : SameLinks g.nodes g'.nodes) (hperm : g'.kernelNodes.Perm g.kernelNodes)
    (hdeg : g'.indegrees = g.indegrees) : g'.Resumable := by
  refine ⟨hlisted, hlinks.refsSelf h.refs, ?_, fun i => ?_, fun hacyclic i => ?_⟩
  · rw [hdeg, hperm.length_eq]
    exact h.table
  · rw [hdeg]
    exact h.nonneg i
  · rw [hdeg]
    exact h.clean ((hlinks.acyclic_iff fun n => hperm.mem_iff).mp hacyclic) i

theorem Resumable.grow {g g' : KernelGraph} (h : g.Resumable) (hlisted : g'.Listed)
    (hrefs : RefsSelf g'.nodes) (hle : g.kernelNodes.length ≤ g'.kernelNodes.length)
    (hedge : ∀ u v, g.Edge u v → g'.Edge u v) (hdeg : g'.indegrees = g.indegrees) :
    g'.Resumable := by
  refine ⟨hlisted, hrefs, ?_, fun i => ?_, fun hacyclic i => ?_⟩
  · rw [hdeg]
    exact Nat.le_trans h.table hle
  · rw [hdeg]
    exact h.nonneg i
  · rw [hdeg]
    exact h.clean (hacyclic.mono hedge) i

/-- The call is sorting depth first. -/
def Call.SortsDfs : Call → Prop
  | .topologicalSortDFS => True
  | .getSortedKernelTensors .dfs => True
  | _ => False

/-- The call keeps its nodes, and sorts depth first only where it may. -/
def AllowsDfs (g : KernelGraph) (c : Call) : Prop :=
  g.KeepsNodes c ∧ (Call.SortsDfs c → g.DfsReady)

theorem Resumable.sortNodes {g g' : KernelGraph} {sortType : SortType} {status : AclnnStatus}
    (h : g.Resumable) (hbfs : sortType = .bfs → g.Placed ∧ g.LoopFree)
    (hdfs : sortType = .dfs → g.DfsReady) (hrun : g.sortNodes sortType = some (status, g')) :
    g'.Resumable := by
  obtain ⟨hlisted, hperm⟩ := h.toListed.sortNodes hbfs hrun
  cases sortType with
  | dfs =>
    obtain ⟨_, _, hsorts, hres, -⟩ := (hdfs rfl).sorts h
    obtain ⟨-, rfl⟩ := Prod.mk.inj (some.inj (hsorts.symm.trans hrun))
    exact hres
  | bfs =>
    obtain ⟨hplaced, hfree⟩ := hbfs rfl
    obtain ⟨sorted, hsorts, -⟩ := hplaced.topologicalSortBFS_sorts hfree
    obtain ⟨-, rfl⟩ := Prod.mk.inj (some.inj (hsorts.symm.trans hrun))
    exact h.frame hlisted (numberFrom_frame sorted g.nodes 0).1 hperm rfl
  | userCustom | dfsWithRearrangement => exact (Prod.mk.inj (some.inj hrun)).2 ▸ h

/-- Every allowed call leaves a graph that can be sorted. -/
theorem Resumable.step {g g' : KernelGraph} {c : Call} (h : g.Resumable) (hc : g.AllowsDfs c)
    (hstep : g.step c = some g') : g'.Resumable := by
  have hlisted : g'.Listed := h.toListed.step hc.1 hstep
  cases c with
  | addKernelNode n =>
    obtain rfl := some.inj hstep
    have hlinks := g.addKernelNode_sameLinks n
    refine h.grow hlisted (hlinks.refsSelf h.refs) ?_ (fun u v he => ⟨?_, ?_⟩) rfl
    · simp [addKernelNode]
    · exact mem_append_left _ he.1
    · rw [hlinks.successors]
      exact he.2
  | setKernelNodes ns =>
    obtain rfl := some.inj hstep
    have hnil : g.kernelNodes = [] := hc.1
    obtain ⟨-, hlinks, hdeg, -⟩ := g.setKernelNodes_frame ns
    refine h.grow hlisted (hlinks.refsSelf h.refs) ?_ (fun u v he => ?_) hdeg
    · rw [hnil]
      exact Nat.zero_le _
    · exact absurd he.1 (by simp [hnil])
  | link u v i j =>
    obtain ⟨⟨status, g₁⟩, hlink, rfl⟩ := map_eq_some_iff.mp hstep
    rcases link_eq_some hlink with rfl | ⟨source, target, a, rfl⟩
    · exact h
    · exact h.grow hlisted (addPeers_refsSelf source target a h.refs) (Nat.le_refl _)
        (fun u v he => ⟨he.1, addPeers_successors _ _ _ _ he.2⟩) rfl
  | topologicalSortDFS =>
    obtain ⟨⟨status, g₁⟩, hrun, rfl⟩ := map_eq_some_iff.mp hstep
    have hsort : g.sortNodes .dfs = some (status, g₁) := hrun
    have hbfs : SortType.dfs = .bfs → g.Placed ∧ g.LoopFree := fun h => by cases h
    exact h.sortNodes hbfs (fun _ => hc.2 trivial) hsort
  | topologicalSortBFS =>
    obtain ⟨⟨status, g₁⟩, hrun, rfl⟩ := map_eq_some_iff.mp hstep
    have hsort : g.sortNodes .bfs = some (status, g₁) := hrun
    have hdfs : SortType.bfs = .dfs → g.DfsReady := fun h => by cases h
    exact h.sortNodes (fun _ => hc.1) hdfs hsort
  | getSortedKernelTensors sortType =>
    obtain ⟨⟨status, g₁⟩, hrun, rfl⟩ := map_eq_some_iff.mp hstep
    rcases getSortedKernelTensors_eq_some hrun with ⟨-, rfl⟩ | ⟨g₂, -, hsort, hout⟩
    · exact h
    · have h₂ : g₂.Resumable := h.sortNodes (fun hbfs => by subst hbfs; exact hc.1)
        (fun hdfs => by subst hdfs; exact hc.2 trivial) hsort
      -- what follows the sort changes neither the links nor the table
      rcases hout with rfl | rfl
      · exact h₂.frame hlisted (SameLinks.refl _) (List.Perm.refl _) rfl
      · obtain ⟨hnodes, -, hdeg, htimed⟩ := g₂.calcLifeTimeAndSize_frame
        exact h₂.frame hlisted htimed.sameLinks (hnodes ▸ List.Perm.refl _) hdeg

/-! ## Whole runs -/

theorem create_resumable {nodes : Nodes} (h : Unlinked nodes) : (create nodes).Resumable := by
  refine ⟨⟨rfl, fun _ => rfl⟩, fun n t ht href => ?_, Nat.le_refl 0, fun _ => Int.le_refl 0,
    fun _ _ => rfl⟩
  rw [(h n t ht).2] at href
  simp at href

/-- In every run of allowed calls the depth-first sort is right wherever it may be
asked for. -/
theorem topologicalSortDFS_sorts (nodes : Nodes) (hnodes : Unlinked nodes) (calls : List Call)
    (hcalls : Along step AllowsDfs (create nodes) calls) (g : KernelGraph)
    (hrun : run step (create nodes) calls = some g) (hready : g.DfsReady) : g.SortsDepthFirst := by
  have hres : g.Resumable := Along.invariant (fun _ _ _ h hc hs => h.step hc hs) calls hcalls
    (create_resumable hnodes) hrun
  obtain ⟨status, g', hsort, -, hiff, hsorted⟩ := hready.sorts hres
  exact ⟨status, g', hsort, hiff, hsorted⟩

/-- Nodes with one input and one output in the workspace each. -/
def oneEach : Nodes := fun _ =>
  ⟨0, 0, [KernelTensor.new none], [KernelTensor.new (some ⟨true, .DT_FLOAT, 4⟩)], []⟩

theorem oneEach_unlinked : Unlinked oneEach := by
  intro n t ht
  obtain rfl := mem_singleton.mp ht
  exact ⟨rfl, rfl⟩

/-- Two nodes listed against their link; the second one works in place. -/
def pairCalls : List Call :=
  [.setKernelNodes [1, 0], .link (some 0) (some 1) 0 0, .link (some 1) (some 1) 0 0]

theorem topologicalSortDFS_sorts_pair :
    ∃ g, run step (create oneEach) pairCalls = some g ∧ g.SortsDepthFirst := by
  refine ⟨_, rfl, topologicalSortDFS_sorts oneEach oneEach_unlinked pairCalls ?_ _ rfl
    ⟨⟨?_, ?_, ?_⟩, fun _ => ?_⟩⟩
  · exact ⟨⟨rfl, fun h => h.elim⟩, fun _ _ => ⟨⟨trivial, fun h => h.elim⟩,
      fun _ _ => ⟨⟨trivial, fun h => h.elim⟩, fun _ _ => trivial⟩⟩⟩
  · unfold LinksInside
    decide
  · intro i n hn
    match i, hn with
    | 0, hn => obtain rfl := some.inj hn; rfl
    | 1, hn => obtain rfl := some.inj hn; rfl
  · decide
  · decide

/-- One output that feeds its own node and another. -/
def mixedCalls : List Call :=
  [.addKernelNode 0, .addKernelNode 1, .link (some 0) (some 0) 0 0, .link (some 0) (some 1) 0 0]

def mixed : KernelGraph := (run step (create oneEach) mixedCalls).getD (create oneEach)

/-- The acyclic graph is reported as a cycle. -/
theorem topologicalSortDFS_mixed :
    run step (create oneEach) mixedCalls = some mixed ∧ mixed.Acyclic ∧
      mixed.topologicalSortDFS.map (·.1) = some .errInner ∧ ¬ mixed.SortsDepthFirst := by
  have hstatus : mixed.topologicalSortDFS.map (·.1) = some .errInner := by decide
  have hacyclic : mixed.Acyclic := by
    refine acyclic_of_rank id fun u v he hne => ?_
    have hu : u ∈ [0, 1] := he.1
    have hv := he.2
    rcases mem_pair.mp hu with rfl | rfl
    · have hsucc : successors mixed.nodes 0 = [0, 1] := rfl
      rw [hsucc] at hv
      rcases mem_pair.mp hv with rfl | rfl
      · exact absurd rfl hne
      · exact Nat.zero_lt_one
    · have hsucc : successors mixed.nodes 1 = [] := rfl
      rw [hsucc] at hv
      simp at hv
  refine ⟨rfl, hacyclic, hstatus, fun ⟨status, g', hrun, hiff, _⟩ => ?_⟩
  have hsuccess := hiff.mpr hacyclic
  rw [hrun, hsuccess] at hstatus
  simp at hstatus

end KernelGraph

end OpBase.Graph
