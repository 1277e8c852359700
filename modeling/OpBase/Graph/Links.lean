import OpBase.Graph.KernelGraph
import OpBase.Lib.KahnNames

/-!
# Links, and what leaves them alone

The edges of a kernel graph are its links, one for each peer of each output.
`SameLinks` says that a change of the nodes' memory touched neither peers nor
references: everything but `Link` and `CalcIndegrees` is such a change.

> `SameLinks.acyclic_iff`: the edges, and so the cycles, stay.
>
> `numberFrom_topoId`: nodes numbered along a list carry their places in it.
-/

namespace OpBase.Graph

open Function (update)
open Lib

/-- The targets of all links of a node, in the order of the loops. -/
def successors (nodes : Nodes) (n : Nat) : List Nat :=
  (nodes n).outputs.flatMap KernelTensor.consumers

namespace KernelGraph

/-- There is a link from an output of `u` to an input of `v`. -/
def Edge (g : KernelGraph) : Nat → Nat → Prop :=
  Kahn.NamedEdge g.kernelNodes (successors g.nodes)

/-- The graph without self edges is acyclic. -/
def Acyclic (g : KernelGraph) : Prop :=
  ∀ u, ¬ Relation.TransGen (fun a b => g.Edge a b ∧ a ≠ b) u u

/-- There is no cycle, where a self edge is one too. -/
def LoopFree (g : KernelGraph) : Prop := ∀ u, ¬ Relation.TransGen g.Edge u u

/-- Links of the graph's nodes lead to the graph's nodes. -/
def LinksInside (g : KernelGraph) : Prop :=
  ∀ u ∈ g.kernelNodes, ∀ v ∈ successors g.nodes u, v ∈ g.kernelNodes

end KernelGraph

theorem rank_lt {E : Nat → Nat → Prop} (rank : Nat → Nat) (h : ∀ u v, E u v → rank u < rank v)
    {a b : Nat} (hab : Relation.TransGen E a b) : rank a < rank b := by
  induction hab with
  | single e => exact h _ _ e
  | tail _ e ih => exact ih.trans (h _ _ e)

variable {g : KernelGraph}

theorem acyclic_of_rank (rank : Nat → Nat) (h : ∀ u v, g.Edge u v → u ≠ v → rank u < rank v) :
    g.Acyclic := fun _ hcycle =>
  Nat.lt_irrefl _ (rank_lt rank (fun u v e => h u v e.1 e.2) hcycle)

theorem loopFree_of_rank (rank : Nat → Nat) (h : ∀ u v, g.Edge u v → rank u < rank v) :
    g.LoopFree := fun _ hcycle =>
  Nat.lt_irrefl _ (rank_lt rank h hcycle)

theorem KernelGraph.Acyclic.mono {g' : KernelGraph} (h : g'.Acyclic)
    (hedge : ∀ u v, g.Edge u v → g'.Edge u v) : g.Acyclic := fun u hcycle =>
  h u (hcycle.lift id fun a b hab => ⟨hedge a b hab.1, hab.2⟩)

/-! ## Memory changes that keep the links -/

def SameLinks (nodes nodes' : Nodes) : Prop :=
  ∀ n, ((nodes' n).outputs.map fun t => (t.peers, t.refTensor)) =
    (nodes n).outputs.map fun t => (t.peers, t.refTensor)

theorem SameLinks.trans {nodes₁ nodes₂ nodes₃ : Nodes} (h : SameLinks nodes₁ nodes₂)
    (h' : SameLinks nodes₂ nodes₃) : SameLinks nodes₁ nodes₃ := fun n => (h' n).trans (h n)

theorem SameLinks.of_update {nodes : Nodes} {n : Nat} {node : KernelNode}
    (h : (node.outputs.map fun t => (t.peers, t.refTensor)) =
      (nodes n).outputs.map fun t => (t.peers, t.refTensor)) :
    SameLinks nodes (update nodes n node) := by
  intro m
  by_cases hm : m = n
  · subst hm
    rw [Function.update_self]
    exact h
  · rw [Function.update_of_ne hm]

theorem SameLinks.successors {nodes nodes' : Nodes} (h : SameLinks nodes nodes') (n : Nat) :
    successors nodes' n = successors nodes n := by
  have hflat : ∀ nodes : Nodes, Graph.successors nodes n =
      ((nodes n).outputs.map fun t => (t.peers, t.refTensor)).flatMap
        fun l => l.1.map (·.node) := by
    intro nodes
    rw [List.flatMap_map]
    rfl
  rw [hflat, hflat, h n]

theorem SameLinks.edge_iff {g' : KernelGraph} (h : SameLinks g.nodes g'.nodes)
    (hnodes : ∀ n, n ∈ g'.kernelNodes ↔ n ∈ g.kernelNodes) (u v : Nat) :
    g'.Edge u v ↔ g.Edge u v := by
  unfold KernelGraph.Edge Kahn.NamedEdge
  rw [hnodes, h.successors]

/-- Cycles depend on the links and the nodes only. -/
theorem SameLinks.acyclic_iff {g' : KernelGraph} (h : SameLinks g.nodes g'.nodes)
    (hnodes : ∀ n, n ∈ g'.kernelNodes ↔ n ∈ g.kernelNodes) : g'.Acyclic ↔ g.Acyclic :=
  ⟨fun ha => ha.mono fun u v => (h.edge_iff hnodes u v).mpr,
    fun ha => ha.mono fun u v => (h.edge_iff hnodes u v).mp⟩

/-- A reference is only ever set on an output that feeds its own node. -/
def RefsSelf (nodes : Nodes) : Prop :=
  ∀ n, ∀ t ∈ (nodes n).outputs, t.refTensor.isSome → n ∈ t.consumers

theorem SameLinks.refsSelf {nodes nodes' : Nodes} (h : SameLinks nodes nodes')
    (hrefs : RefsSelf nodes) : RefsSelf nodes' := by
  intro n t' ht' href
  have hmem : (t'.peers, t'.refTensor) ∈ (nodes n).outputs.map fun t => (t.peers, t.refTensor) := by
    rw [← h n]
    exact List.mem_map_of_mem ht'
  obtain ⟨t, ht, heq⟩ := List.mem_map.mp hmem
  obtain ⟨hpeers, hreft⟩ := Prod.mk.inj heq
  have hself := hrefs n t ht (hreft ▸ href)
  unfold KernelTensor.consumers at hself ⊢
  rwa [hpeers] at hself

/-! ## Numbering nodes -/

/-- Nodes whose places are their indices are listed once. -/
theorem nodup_of_place {ns : List Nat} {place : Nat → Nat}
    (h : ∀ i n, ns[i]? = some n → place n = i) : ns.Nodup := by
  refine List.nodup_iff_getElem?_ne_getElem?.mpr fun i j hij hj heq => ?_
  have hn := List.getElem?_eq_getElem hj
  have hi := h i _ (heq.trans hn)
  have hj := h j _ hn
  omega

section

variable (nodes : Nodes)
include nodes

theorem SameLinks.refl : SameLinks nodes nodes := fun _ => rfl

theorem setIds_sameLinks (n i j : Nat) : SameLinks nodes (setIds nodes n i j) :=
  SameLinks.of_update rfl

theorem setTopoId_sameLinks (n i : Nat) : SameLinks nodes (setTopoId nodes n i) :=
  SameLinks.of_update rfl

@[simp] theorem setTopoId_topoId_self (n i : Nat) :
    (setTopoId nodes n i n).topoId = i := by
  simp [setTopoId]

theorem setTopoId_of_ne {n m : Nat} (i : Nat) (h : m ≠ n) :
    setTopoId nodes n i m = nodes m := Function.update_of_ne h _ _

@[simp] theorem setTopoId_originalId (n i m : Nat) :
    (setTopoId nodes n i m).originalId = (nodes m).originalId := by
  by_cases h : m = n
  · subst h; simp [setTopoId]
  · rw [setTopoId_of_ne nodes i h]

@[simp] theorem setTopoId_outputs (n i m : Nat) :
    (setTopoId nodes n i m).outputs = (nodes m).outputs := by
  by_cases h : m = n
  · subst h; simp [setTopoId]
  · rw [setTopoId_of_ne nodes i h]

@[simp] theorem setTopoId_workspace (n i m : Nat) :
    (setTopoId nodes n i m).workspace = (nodes m).workspace := by
  by_cases h : m = n
  · subst h; simp [setTopoId]
  · rw [setTopoId_of_ne nodes i h]

end

namespace KernelGraph

/-- `numberNodes` from place `k` on. -/
def numberFrom (nodes : Nodes) (sorted : List Nat) (k : Nat) : Nodes :=
  (sorted.zipIdx k).foldl (fun nodes p => setTopoId nodes p.1 p.2) nodes

theorem numberFrom_cons (nodes : Nodes) (n : Nat) (sorted : List Nat) (k : Nat) :
    numberFrom nodes (n :: sorted) k = numberFrom (setTopoId nodes n k) sorted (k + 1) := rfl

/-- Numbering changes the places of the sorted nodes only. -/
theorem numberFrom_frame : ∀ (sorted : List Nat) (nodes : Nodes) (k : Nat),
    SameLinks nodes (numberFrom nodes sorted k) ∧
      (∀ m, (numberFrom nodes sorted k m).originalId = (nodes m).originalId ∧
        (numberFrom nodes sorted k m).outputs = (nodes m).outputs ∧
        (numberFrom nodes sorted k m).workspace = (nodes m).workspace) ∧
      ∀ m, m ∉ sorted → (numberFrom nodes sorted k m).topoId = (nodes m).topoId
  | [], nodes, k => ⟨SameLinks.refl nodes, fun _ => ⟨rfl, rfl, rfl⟩, fun _ _ => rfl⟩
  | n :: sorted, nodes, k => by
    obtain ⟨hlinks, hkeep, htopo⟩ := numberFrom_frame sorted (setTopoId nodes n k) (k + 1)
    rw [numberFrom_cons]
    refine ⟨(setTopoId_sameLinks nodes n k).trans hlinks, fun m => ?_, fun m hm => ?_⟩
    · obtain ⟨hid, hout, hws⟩ := hkeep m
      rw [setTopoId_originalId] at hid
      rw [setTopoId_outputs] at hout
      rw [setTopoId_workspace] at hws
      exact ⟨hid, hout, hws⟩
    · rw [List.mem_cons, not_or] at hm
      rw [htopo m hm.2, setTopoId_of_ne nodes k hm.1]

/-- Numbering gives each node its index. -/
theorem numberFrom_topoId : ∀ {sorted : List Nat} (nodes : Nodes) (k : Nat), sorted.Nodup →
    ∀ i m, sorted[i]? = some m → (numberFrom nodes sorted k m).topoId = k + i
  | [], _, _, _, i, m, h => by simp at h
  | n :: sorted, nodes, k, hnd, i, m, h => by
    obtain ⟨hnot, hnd'⟩ := List.nodup_cons.mp hnd
    rw [numberFrom_cons]
    match i with
    | 0 =>
      obtain rfl : n = m := by simpa using h
      rw [(numberFrom_frame sorted _ (k + 1)).2.2 n hnot, setTopoId_topoId_self]
      rfl
    | i + 1 =>
      rw [numberFrom_topoId _ (k + 1) hnd' i m (by simpa using h)]
      omega

end KernelGraph

end OpBase.Graph
