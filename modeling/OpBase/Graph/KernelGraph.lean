import OpBase.Base.DataType
import OpBase.Lib.Kahn
import OpBase.Lib.Run

/-!
# Sorting a kernel graph

`src/nnopbase/common/utils/kernel_graph.cpp` with the links of
`composite_op/mem_mgr/kernel_graph_utils.cpp`: nodes are added to a graph,
`Link` joins an output of one node to an input of another, and
`GetSortedKernelTensors` sorts the nodes depth first or breadth first and hands
the tensors to the memory planner.

`Mem.KernelGraph` is the same class on the path of `BuildGraph`, where nothing is
ever sorted. Here the nodes are objects that exist before they join the graph;
`nodes` is the memory they live in, by address. A `KernelTensor` belongs to the
node that lists it (`AddInput`, `AddOutput` and `AddWorkspace` set its owner), so
it is named by its owner and its place.

Two integers are kept beside every node. `originalId` is its place in
`kernelNodes_` when it joined; `topoId` is its place in the order of the last
sort, whichever that was.
-/

namespace OpBase.Graph

open Function (update)
open Lib.Kahn (release ready)

inductive AclnnStatus where
  | success
  | errInner
deriving DecidableEq, Repr

inductive SortType where
  | userCustom
  | dfs
  | bfs
  | dfsWithRearrangement
deriving DecidableEq, Repr

/-- The part of an `aclTensor` that is read here. -/
structure AclTensor where
  isFromWorkspace : Bool
  dataType : DataType
  storageShapeSize : Int
deriving DecidableEq, Repr

/-- A `KernelTensor` by its owner node and its place there. -/
structure Port where
  node : Nat
  index : Nat
deriving DecidableEq, Repr

structure KernelTensor where
  aclTensor : Option AclTensor
  peers : List Port
  refTensor : Option Port
  tensorSize : Int
  lifeTimeStart : Int
  lifeTimeEnd : Int
deriving DecidableEq, Repr

/-- `KernelTensor::KernelTensor`. -/
def KernelTensor.new (aclTensor : Option AclTensor) : KernelTensor :=
  ⟨aclTensor, [], none, 0, 0, 2 ^ 63 - 1⟩

structure KernelNode where
  originalId : Nat
  topoId : Nat
  inputs : List KernelTensor
  outputs : List KernelTensor
  workspace : List KernelTensor
deriving DecidableEq, Repr

/-- The memory of all nodes. -/
abbrev Nodes := Nat → KernelNode

/-- An entry of `sortedKernelTensors_`. -/
inductive SortedTensor where
  | workspace (port : Port)
  | output (port : Port)
deriving DecidableEq, Repr

def SortedTensor.port : SortedTensor → Port
  | .workspace p => p
  | .output p => p

/-- The tensor behind an entry. -/
def SortedTensor.tensor (nodes : Nodes) : SortedTensor → Option KernelTensor
  | .workspace p => (nodes p.node).workspace[p.index]?
  | .output p => (nodes p.node).outputs[p.index]?

structure KernelGraph where
  nodes : Nodes
  kernelNodes : List Nat
  sortedNodes : List Nat
  sortedKernelTensors : List SortedTensor
  indegrees : List Int

def setIds (nodes : Nodes) (n originalId topoId : Nat) : Nodes :=
  update nodes n { nodes n with originalId := originalId, topoId := topoId }

def setTopoId (nodes : Nodes) (n topoId : Nat) : Nodes :=
  update nodes n { nodes n with topoId := topoId }

namespace KernelGraph

/-! ## Building -/

/-- An empty graph beside nodes that belong to no graph yet. -/
def create (nodes : Nodes) : KernelGraph := ⟨nodes, [], [], [], []⟩

/-- `KernelGraph::AddKernelNode`. -/
def addKernelNode (g : KernelGraph) (n : Nat) : KernelGraph :=
  { g with
    nodes := setIds g.nodes n g.kernelNodes.length g.kernelNodes.length
    sortedNodes := g.sortedNodes ++ [n]
    kernelNodes := g.kernelNodes ++ [n] }

/-- One round of the loop of `SetKernelNodes`. The identifiers go to the node at
place `i` of `sortedNodes_`, which is the new node only if the list was empty. -/
def setKernelNode (g : KernelGraph) (p : Nat × Nat) : KernelGraph :=
  let sortedNodes := g.sortedNodes ++ [p.1]
  { g with sortedNodes := sortedNodes, nodes := setIds g.nodes (sortedNodes.getD p.2 p.1) p.2 p.2 }

/-- `KernelGraph::SetKernelNodes`. -/
def setKernelNodes (g : KernelGraph) (kernelNodes : List Nat) : KernelGraph :=
  { kernelNodes.zipIdx.foldl setKernelNode g with kernelNodes := kernelNodes }

/-- `KernelTensor::AddPeerTensor` for the output and then for the input, which
takes over the `aclTensor`. -/
def addPeers (nodes : Nodes) (source target : Port) (aclTensor : Option AclTensor) : Nodes :=
  let nodes := update nodes source.node
    { nodes source.node with
      outputs := (nodes source.node).outputs.modify source.index fun t =>
        { t with peers := t.peers ++ [target] } }
  update nodes target.node
    { nodes target.node with
      inputs := (nodes target.node).inputs.modify target.index fun t =>
        { t with peers := t.peers ++ [source], aclTensor := aclTensor } }

/-- `KernelGraphUtils::Link`; a null node is `none`. The range checks let the size
itself pass, and there `at` throws. -/
def link (g : KernelGraph) (fromNode toNode : Option Nat) (fromIdx toIdx : Nat) :
    Option (AclnnStatus × KernelGraph) :=
  match fromNode, toNode with
  | some u, some v =>
    if fromIdx > (g.nodes u).outputs.length then some (.errInner, g)
    else if toIdx > (g.nodes v).inputs.length then some (.errInner, g)
    else
      match (g.nodes u).outputs[fromIdx]?, (g.nodes v).inputs[toIdx]? with
      | some fromTensor, some _ =>
        some (.success,
          { g with nodes := addPeers g.nodes ⟨u, fromIdx⟩ ⟨v, toIdx⟩ fromTensor.aclTensor })
      | _, _ => none
  | _, _ => some (.errInner, g)

end KernelGraph

/-! ## Counting -/

/-- `indegrees[i] += 1`, or nothing where there is no such entry. -/
def increment (indegrees : List Int) (i : Nat) : Option (List Int) :=
  if i < indegrees.length then some (indegrees.modify i (· + 1)) else none

/-- Narrowing to `int`, and back when it is used as an index. -/
def toInt (i : Nat) : Nat := (Int.bmod i (2 ^ 32)).toNat

/-- The nodes an output is linked to, link by link. -/
def KernelTensor.consumers (t : KernelTensor) : List Nat := t.peers.map (·.node)

namespace KernelGraph

/-! ## Breadth first -/

/-- What the two inner loops of `TopologicalSortBFS` walk through: the `topoId` of
the owner of every peer of every output. -/
def peerTopoIds (nodes : Nodes) (n : Nat) : List Nat :=
  (nodes n).outputs.flatMap fun t => t.consumers.map fun v => (nodes v).topoId

/-- The queue loop; it ends when the queue is empty. -/
def bfsLoop (nodes : Nodes) (kernelNodes : List Nat) :
    Nat → List Int → List Nat → List Nat → Option (List Nat)
  | 0, _, _, _ => none
  | _ + 1, _, [], sorted => some sorted
  | fuel + 1, indegrees, nodeIdx :: q, sorted =>
    match kernelNodes[nodeIdx]? with
    | none => none
    | some node =>
      let s := ((peerTopoIds nodes node).map toInt).foldl (release fun v w => w ++ [v])
        (indegrees, q)
      bfsLoop nodes kernelNodes fuel s.1 s.2 (sorted ++ [node])

/-- `node->SetTopoId(kernelId++)` for the listed nodes. -/
def numberNodes (nodes : Nodes) (sorted : List Nat) : Nodes :=
  sorted.zipIdx.foldl (fun nodes p => setTopoId nodes p.1 p.2) nodes

/-- `KernelGraph::TopologicalSortBFS`. Nodes the queue never reached are dropped
from `kernelNodes_`; `sortedNodes_` stays as it is. -/
def topologicalSortBFS (g : KernelGraph) : Option (AclnnStatus × KernelGraph) :=
  let n := g.kernelNodes.length
  match (g.kernelNodes.flatMap (peerTopoIds g.nodes)).foldlM increment (List.replicate n 0) with
  | none => some (.errInner, g)
  | some indegrees =>
    (bfsLoop g.nodes g.kernelNodes (n + 1) indegrees (ready n indegrees) []).map fun sorted =>
      (.success, { g with kernelNodes := sorted, nodes := numberNodes g.nodes sorted })

/-! ## Depth first -/

/-- The indices that the first loop of `CalcIndegrees` increments for one node:
peers owned by the node itself are left out. -/
def countedPeers (nodes : Nodes) (n : Nat) : List Nat :=
  (nodes n).outputs.flatMap fun t =>
    (t.consumers.map fun v => (nodes v).originalId).filter (· ≠ (nodes n).originalId)

/-- `output->SetRefTensor(peer)` for every peer owned by the node itself; the last
one stays. -/
def setRefTensor (nodes : Nodes) (n : Nat) (t : KernelTensor) : KernelTensor :=
  { t with refTensor := t.peers.foldl (fun ref peer =>
      if (nodes peer.node).originalId = (nodes n).originalId then some peer else ref) t.refTensor }

/-- How many indices the second loop of `CalcIndegrees` runs through: its counter
is an `int32_t`. -/
def startCount (size : Nat) : Nat := (Int.bmod ((size : Int) - 1) (2 ^ 32) + 1).toNat

/-- `KernelGraph::CalcIndegrees`: `indegrees_` is resized, not reset. The indices
that count zero end up on the stack with the smallest on top. -/
def calcIndegrees (g : KernelGraph) : Option (KernelGraph × List Nat) :=
  let n := g.kernelNodes.length
  let resized := g.indegrees.take n ++ List.replicate (n - g.indegrees.length) 0
  ((g.kernelNodes.flatMap (countedPeers g.nodes)).foldlM increment resized).map fun indegrees =>
    ({ g with
        indegrees := indegrees
        nodes := fun n => if n ∈ g.kernelNodes then
          { g.nodes n with outputs := (g.nodes n).outputs.map (setRefTensor g.nodes n) }
          else g.nodes n },
      (List.range (startCount n)).foldr
        (fun i stack => if indegrees.getD i 0 = 0 then i :: stack else stack) [])

/-- The indices that the loop of `TopologicalSortDFS` decrements for one node: an
output with a reference is passed over with all its peers. -/
def releasedPeers (nodes : Nodes) (n : Nat) : List Nat :=
  (nodes n).outputs.flatMap fun t =>
    if t.refTensor.isSome then [] else t.consumers.map fun v => (nodes v).originalId

/-- The variables of the loop of `TopologicalSortDFS`; the stack is listed from its top. -/
structure DfsFrame where
  nodes : Nodes
  stack : List Nat
  indegrees : List Int
  sortedNodes : List Nat
  realIndex : Nat

/-- The stack loop; it ends when the stack is empty. The indices it decrements have
been incremented before, so they are in range. -/
def dfsLoop (kernelNodes : List Nat) : Nat → DfsFrame → Option (AclnnStatus × DfsFrame)
  | 0, _ => none
  | fuel + 1, f =>
    match f.stack with
    | [] => some (.success, f)
    | nodeIdx :: stack =>
      match kernelNodes[nodeIdx]? with
      | none => some (.errInner, { f with stack := stack })
      | some node =>
        let s := (releasedPeers f.nodes node).foldl (release List.cons) (f.indegrees, stack)
        dfsLoop kernelNodes fuel
          { nodes := setTopoId f.nodes node f.realIndex
            stack := s.2
            indegrees := s.1
            sortedNodes := f.sortedNodes.set f.realIndex node
            realIndex := f.realIndex + 1 }

/-- `KernelGraph::TopologicalSortDFS`. -/
def topologicalSortDFS (g : KernelGraph) : Option (AclnnStatus × KernelGraph) := do
  let (g, stack) ← g.calcIndegrees
  let (status, f) ← dfsLoop g.kernelNodes (g.kernelNodes.length + 1)
    ⟨g.nodes, stack, g.indegrees, g.sortedNodes, 0⟩
  let g := { g with nodes := f.nodes, indegrees := f.indegrees, sortedNodes := f.sortedNodes }
  -- "Cycle detected in graph"
  if status = .success ∧ f.realIndex ≠ g.kernelNodes.length then some (.errInner, g)
  else some (status, g)

/-! ## Life times -/

/-- `SetLifeTimeStart`, `SetLifeTimeEnd` and `CalcSize`, which without an `aclTensor`
returns before it writes. -/
def setLifeTime (t : KernelTensor) (start stop : Nat) : KernelTensor :=
  { t with
    lifeTimeStart := start
    lifeTimeEnd := stop
    tensorSize := t.aclTensor.elim t.tensorSize fun a => calcSize a.storageShapeSize a.dataType }

/-- The memory of the nodes and the tensors listed so far. -/
structure Plan where
  nodes : Nodes
  sortedKernelTensors : List SortedTensor

/-- The entry for workspace `k` of node `n`: it lives while its node runs. -/
def planWorkspace (n : Nat) (p : Plan) (k : Nat) : Plan :=
  let node := p.nodes n
  { nodes := update p.nodes n
      { node with
        workspace := node.workspace.modify k fun t => setLifeTime t node.topoId node.topoId }
    sortedKernelTensors := p.sortedKernelTensors ++ [.workspace ⟨n, k⟩] }

/-- The last of `topoId` and the `topoId`s of the consumers. -/
def lastConsumer (nodes : Nodes) (topoId : Nat) (t : KernelTensor) : Nat :=
  t.consumers.foldl (fun e v => if (nodes v).topoId > e then (nodes v).topoId else e) topoId

/-- The outputs of node `n` from the listed places; one without an `aclTensor` ends
the whole computation. -/
def planOutputs (n : Nat) : List Nat → Plan → AclnnStatus × Plan
  | [], p => (.success, p)
  | k :: ks, p =>
    let node := p.nodes n
    match (node.outputs[k]?).bind (·.aclTensor) with
    | none => (.errInner, p)
    | some a =>
      if !a.isFromWorkspace then planOutputs n ks p
      else planOutputs n ks
        { nodes := update p.nodes n
            { node with
              outputs := node.outputs.modify k fun t =>
                setLifeTime t node.topoId (lastConsumer p.nodes node.topoId t) }
          sortedKernelTensors := p.sortedKernelTensors ++ [.output ⟨n, k⟩] }

def planNodes : List Nat → Plan → AclnnStatus × Plan
  | [], p => (.success, p)
  | n :: rest, p =>
    let p := (List.range (p.nodes n).workspace.length).foldl (planWorkspace n) p
    match planOutputs n (List.range (p.nodes n).outputs.length) p with
    | (.errInner, p) => (.errInner, p)
    | (.success, p) => planNodes rest p

/-- `KernelGraph::CalcLifeTimeAndSize`, over as many entries of `sortedNodes_` as
`kernelNodes_` has. `sortedNodes_` is never the shorter list. -/
def calcLifeTimeAndSize (g : KernelGraph) : AclnnStatus × KernelGraph :=
  let (status, p) := planNodes (g.sortedNodes.take g.kernelNodes.length) ⟨g.nodes, []⟩
  (status, { g with nodes := p.nodes, sortedKernelTensors := p.sortedKernelTensors })

/-- The sort that a `SortType` asks for, if any. -/
def sortNodes (g : KernelGraph) : SortType → Option (AclnnStatus × KernelGraph)
  | .dfs => g.topologicalSortDFS
  | .bfs => g.topologicalSortBFS
  | _ => some (.success, g)

/-- `KernelGraph::SortKernelTensor`; what `CalcLifeTimeAndSize` returns is dropped. -/
def sortKernelTensor (g : KernelGraph) (sortType : SortType) : Option (AclnnStatus × KernelGraph) :=
  if g.kernelNodes = [] then some (.success, g)
  else
    (g.sortNodes sortType).map fun (ret, g) =>
      if ret ≠ .success then (ret, g) else (.success, g.calcLifeTimeAndSize.2)

/-- `KernelGraph::GetSortedKernelTensors`, with the status it saw. -/
def getSortedKernelTensors (g : KernelGraph) (sortType : SortType) :
    Option (AclnnStatus × KernelGraph) :=
  (g.sortKernelTensor sortType).map fun (ret, g) =>
    if ret ≠ .success then (ret, { g with sortedKernelTensors := [] }) else (ret, g)

end KernelGraph

/-! ## Runs -/

/-- A call from outside. -/
inductive Call where
  | addKernelNode (n : Nat)
  | setKernelNodes (kernelNodes : List Nat)
  | link (fromNode toNode : Option Nat) (fromIdx toIdx : Nat)
  | topologicalSortDFS
  | topologicalSortBFS
  | getSortedKernelTensors (sortType : SortType)

/-- One call; a call that throws is no step. -/
def KernelGraph.step (g : KernelGraph) : Call → Option KernelGraph
  | .addKernelNode n => some (g.addKernelNode n)
  | .setKernelNodes kernelNodes => some (g.setKernelNodes kernelNodes)
  | .link u v i j => (g.link u v i j).map (·.2)
  | .topologicalSortDFS => g.topologicalSortDFS.map (·.2)
  | .topologicalSortBFS => g.topologicalSortBFS.map (·.2)
  | .getSortedKernelTensors t => (g.getSortedKernelTensors t).map (·.2)

/-- Nodes as they are built, before the first `Link`. -/
def Unlinked (nodes : Nodes) : Prop :=
  ∀ n, ∀ t ∈ (nodes n).outputs, t.peers = [] ∧ t.refTensor = none

end OpBase.Graph
