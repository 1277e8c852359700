import OpBase.Graph.DepthFirstRuns

/-!
# Breadth-first sorting along a run

`GetSortedKernelTensors` in breadth-first mode numbers the nodes by one list and dates
their tensors along another: `TopologicalSortBFS` replaces `kernelNodes_` and leaves
`sortedNodes_` in the order of insertion or of an earlier depth-first sort. The tensors
come out in order of their starts where that order is the breadth-first one.

> `getSortedKernelTensors_bfs`: in every run that keeps its nodes, the call sorts the
> nodes and dates the tensors in order, wherever it is made in a state that is
> `BfsReady`.
-/

namespace OpBase.Graph

open Lib Lib.Kahn List

namespace KernelGraph

/-- The tensors handed out start in order, and none ends before it starts. -/
def PlannerReady (g : KernelGraph) : Prop :=
  ∃ ts : List KernelTensor, g.sortedKernelTensors.map (·.tensor g.nodes) = ts.map some ∧
    ts.Pairwise (fun s t => s.lifeTimeStart ≤ t.lifeTimeStart) ∧
    ∀ t ∈ ts, t.lifeTimeStart ≤ t.lifeTimeEnd

/-- `GetSortedKernelTensors` in breadth-first mode keeps all nodes, in an order the edges
agree with, and hands out tensors in order, or it reports a cycle and leaves the node
list as it was. -/
def SortsBreadthFirst (g : KernelGraph) : Prop :=
  ∃ status g', g.getSortedKernelTensors .bfs = some (status, g') ∧
    ((status = .success ∧ g'.kernelNodes.Perm g.kernelNodes ∧
        (∀ u v, g.Edge u v → u ≠ v → g'.kernelNodes.idxOf u < g'.kernelNodes.idxOf v) ∧
        g'.PlannerReady) ∨
      (¬ g.Acyclic ∧ status ≠ .success ∧ g'.kernelNodes = g.kernelNodes))

/-- The breadth-first mode may be asked for: the nodes are numbered by their places,
there is no cycle and no self edge, and the nodes with tensors for the planner stand
in `sortedNodes_` in breadth-first order. -/
structure BfsReady (g : KernelGraph) : Prop extends Placed g where
  loopFree : g.LoopFree
  ordered : ∃ order, NamedBreadthFirst g.kernelNodes (successors g.nodes) order ∧
    g.sortedNodes.filter (emits g.nodes) = order.filter (emits g.nodes)

/-! ## One sort -/

theorem dated_inOrder {nodes : Nodes} : ∀ {xs : List SortedTensor}, (∀ x ∈ xs, Dated nodes x) →
    xs.Pairwise (fun x y => (nodes x.port.node).topoId ≤ (nodes y.port.node).topoId) →
    ∃ ts : List KernelTensor, xs.map (·.tensor nodes) = ts.map some ∧
      ts.Pairwise (fun s t => s.lifeTimeStart ≤ t.lifeTimeStart) ∧
      ∀ t ∈ ts, ∃ x ∈ xs, InTime (nodes x.port.node).topoId t
  | [], _, _ => ⟨[], rfl, List.Pairwise.nil, fun t ht => by simp at ht⟩
  | x :: xs, hdated, hord => by
    obtain ⟨hx, hrest⟩ := pairwise_cons.mp hord
    obtain ⟨ts, hmap, hts, hin⟩ := dated_inOrder (fun y hy => hdated y (mem_cons_of_mem _ hy)) hrest
    obtain ⟨t, ht, htime⟩ := hdated x mem_cons_self
    refine ⟨t :: ts, by rw [map_cons, map_cons, ht, hmap],
      pairwise_cons.mpr ⟨fun s hs => ?_, hts⟩, fun s hs => ?_⟩
    · obtain ⟨y, hy, hsy⟩ := hin s hs
      rw [htime.1, hsy.1]
      exact Int.ofNat_le.mpr (hx y hy)
    · rcases mem_cons.mp hs with rfl | hs
      · exact ⟨x, mem_cons_self, htime⟩
      · obtain ⟨y, hy, hsy⟩ := hin s hs
        exact ⟨y, mem_cons_of_mem _ hy, hsy⟩

variable {g : KernelGraph}

/-- The life times are planned in the order of the places, as the planner asks for. -/
theorem calcLifeTimeAndSize_plannerReady (hlen : g.sortedNodes.length = g.kernelNodes.length)
    (htopo : ∀ i n, g.kernelNodes[i]? = some n → (g.nodes n).topoId = i)
    (hagree : g.sortedNodes.filter (emits g.nodes) = g.kernelNodes.filter (emits g.nodes)) :
    g.calcLifeTimeAndSize.2.PlannerReady := by
  obtain ⟨xs, hplan⟩ := planNodes_spec (g.sortedNodes.take g.kernelNodes.length) ⟨g.nodes, []⟩
  rw [← hlen, take_length] at hplan
  have hnodes : g.kernelNodes.Pairwise fun m n => (g.nodes m).topoId ≤ (g.nodes n).topoId := by
    refine pairwise_iff_getElem.mpr fun i j hi hj hij => ?_
    rw [htopo i _ (getElem?_eq_getElem hi), htopo j _ (getElem?_eq_getElem hj)]
    exact Nat.le_of_lt hij
  -- Only nodes with tensors count, and of those `sortedNodes_` is in order of the numbers.
  have hord := hplan.ordered (hagree ▸ hnodes.sublist filter_sublist)
  have hout : g.calcLifeTimeAndSize.2 = { g with
      nodes := (planNodes g.sortedNodes ⟨g.nodes, []⟩).2.nodes
      sortedKernelTensors := (planNodes g.sortedNodes ⟨g.nodes, []⟩).2.sortedKernelTensors } := by
    unfold calcLifeTimeAndSize
    rw [← hlen, take_length]
  have hdated := fun x hx => (hplan.dated x hx).1
  obtain ⟨ts, hmap, hts, hin⟩ := dated_inOrder hdated (hord.imp fun {x y} hxy => by
    rw [hplan.timed.topoId, hplan.timed.topoId]
    exact hxy)
  have hentries := hplan.entries
  rw [nil_append] at hentries
  refine ⟨ts, ?_, hts, fun t ht => ?_⟩
  · rw [hout]
    dsimp only
    rw [hentries]
    exact hmap
  · obtain ⟨x, -, htime⟩ := hin t ht
    exact htime.2

/-- A graph that is ready sorts breadth first. -/
theorem BfsReady.sorts (h : g.BfsReady) (hlisted : g.Listed) :
    g.SortsBreadthFirst := by
  unfold SortsBreadthFirst getSortedKernelTensors sortKernelTensor
  by_cases hnil : g.kernelNodes = []
  · -- an empty graph is left as it is, with no tensors listed
    rw [if_pos hnil]
    refine ⟨.success, g, rfl, Or.inl ⟨rfl, List.Perm.refl _, fun u v he => ?_, [], ?_,
      List.Pairwise.nil, fun t ht => by simp at ht⟩⟩
    · exact absurd he.1 (by simp [hnil])
    · rw [hlisted.empty hnil]
      rfl
  · rw [if_neg hnil]
    obtain ⟨sorted, hrun, hperm, -, hbefore, hplace, horder⟩ :=
      h.toPlaced.topologicalSortBFS_sorts h.loopFree
    obtain ⟨order, hbf, hagree⟩ := h.ordered
    obtain rfl := horder order hbf
    have hkeep := (numberFrom_frame sorted g.nodes 0).2.1
    have hemits : ∀ n, emits (numberNodes g.nodes sorted) n = emits g.nodes n := by
      intro n
      obtain ⟨-, hout, hws⟩ := hkeep n
      show (!(numberFrom g.nodes sorted 0 n).workspace.isEmpty ||
        (numberFrom g.nodes sorted 0 n).outputs.any _) = _
      rw [hout, hws]
      rfl
    refine ⟨.success, _, by rw [sortNodes, hrun]; rfl, Or.inl ⟨rfl, hperm,
      fun u v he _ => hbefore u v he, calcLifeTimeAndSize_plannerReady ?_ hplace ?_⟩⟩
    · exact hlisted.length.trans hperm.length_eq.symm
    · show g.sortedNodes.filter (emits (numberNodes g.nodes sorted)) =
        sorted.filter (emits (numberNodes g.nodes sorted))
      rw [funext hemits]
      exact hagree

/-! ## Whole runs -/

/-- In every run that keeps its nodes the breadth-first mode is right wherever it may be
asked for. -/
theorem getSortedKernelTensors_bfs (nodes : Nodes) (calls : List Call)
    (hcalls : Along step KeepsNodes (create nodes) calls) (g : KernelGraph)
    (hrun : run step (create nodes) calls = some g) (hready : g.BfsReady) :
    g.SortsBreadthFirst := by
  have hlisted : g.Listed := Along.invariant (fun _ _ _ h hc hs => h.step hc hs) calls hcalls
    ⟨rfl, fun _ => rfl⟩ hrun
  exact hready.sorts hlisted

theorem edge_pair (h₀ : successors g.nodes 0 = [1]) (h₁ : successors g.nodes 1 = [])
    (hnodes : ∀ n ∈ g.kernelNodes, n = 0 ∨ n = 1) {u v : Nat} (he : g.Edge u v) : u < v := by
  have hv := he.2
  rcases hnodes u he.1 with rfl | rfl
  · rw [h₀, mem_singleton] at hv
    omega
  · rw [h₁] at hv
    simp at hv

/-- Two nodes listed along their link. -/
def forwardCalls : List Call := [.addKernelNode 0, .addKernelNode 1, .link (some 0) (some 1) 0 0]

theorem places_pair {P : Nat → Nat → Prop} (h₀ : P 0 0) (h₁ : P 1 1) (i n : Nat)
    (hn : [0, 1][i]? = some n) : P i n := by
  match i, hn with
  | 0, hn => obtain rfl := Option.some.inj hn; exact h₀
  | 1, hn => obtain rfl := Option.some.inj hn; exact h₁

/-- The same nodes linked in both directions. -/
def cycleCalls : List Call := forwardCalls ++ [.link (some 1) (some 0) 0 0]

def cycle : KernelGraph := (run step (create oneEach) cycleCalls).getD (create oneEach)

/-- Along their link both nodes are kept; from the cycle none is, without an error. -/
theorem topologicalSortBFS_length_iff_pair :
    (∃ g, run step (create oneEach) forwardCalls = some g ∧
      ∃ g', g.topologicalSortBFS = some (.success, g') ∧
        (g'.kernelNodes.length = g.kernelNodes.length ↔ g.LoopFree)) ∧
    run step (create oneEach) cycleCalls = some cycle ∧
      ∃ g', cycle.topologicalSortBFS = some (.success, g') ∧
        g'.kernelNodes.length ≠ cycle.kernelNodes.length := by
  constructor
  · exact ⟨_, rfl, Placed.topologicalSortBFS_length_iff
      ⟨by unfold LinksInside; decide, places_pair rfl rfl, by decide⟩⟩
  · have hthere : cycle.Edge 0 1 := ⟨by decide, by decide⟩
    have hback : cycle.Edge 1 0 := ⟨by decide, by decide⟩
    obtain ⟨g', hsort, hlen⟩ := Placed.topologicalSortBFS_length_iff (g := cycle)
      ⟨by unfold LinksInside; decide, places_pair rfl rfl, by decide⟩
    exact ⟨rfl, g', hsort, fun h => hlen.mp h 0 (.tail (.single hthere) hback)⟩

theorem getSortedKernelTensors_bfs_pair :
    ∃ g, run step (create oneEach) forwardCalls = some g ∧ g.SortsBreadthFirst := by
  refine ⟨_, rfl, getSortedKernelTensors_bfs oneEach forwardCalls ?_ _ rfl
    ⟨⟨?_, ?_, ?_⟩, ?_, [0, 1], ⟨?_, ?_⟩, ?_⟩⟩
  · exact ⟨trivial, fun _ _ => ⟨trivial, fun _ _ => ⟨trivial, fun _ _ => trivial⟩⟩⟩
  · unfold LinksInside
    decide
  · exact places_pair rfl rfl
  · decide
  · exact loopFree_of_rank id fun u v he => edge_pair rfl rfl (by decide) he
  · decide
  · decide
  · decide

/-- Two nodes listed against their link. -/
def backwardCalls : List Call := [.addKernelNode 1, .addKernelNode 0, .link (some 0) (some 1) 0 0]

def backward : KernelGraph := (run step (create oneEach) backwardCalls).getD (create oneEach)

/-- Sorted breadth first, the tensor of the node that runs last is handed out first. -/
theorem getSortedKernelTensors_backward :
    run step (create oneEach) backwardCalls = some backward ∧ backward.Acyclic ∧
      ¬ backward.SortsBreadthFirst := by
  have hacyclic : backward.Acyclic :=
    acyclic_of_rank id fun u v he _ => edge_pair rfl rfl (by decide) he
  have hstarts : (backward.getSortedKernelTensors .bfs).map (fun r =>
      r.2.sortedKernelTensors.map fun x => (x.tensor r.2.nodes).map (·.lifeTimeStart)) =
      some [some 1, some 0] := by decide
  refine ⟨rfl, hacyclic, ?_⟩
  rintro ⟨status, g', hrun, ⟨-, -, -, ts, hmap, hord, -⟩ | ⟨hcycle, -⟩⟩
  · rw [hrun] at hstarts
    have hts : (ts.map (·.lifeTimeStart)).map some = [1, 0].map some := by
      have hcomp := congrArg (List.map (Option.map (·.lifeTimeStart))) hmap
      rw [map_map, map_map] at hcomp
      rw [map_map]
      exact hcomp.symm.trans (Option.some.inj hstarts)
    have hstart := pairwise_map.mpr hord
    rw [map_injective_iff.mpr (Option.some_injective _) hts] at hstart
    exact absurd hstart (by decide)
  · exact hcycle hacyclic

end KernelGraph

end OpBase.Graph
