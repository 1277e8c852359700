import OpBase.Base.DataType

/-!
# The kernel graph of a composite op

`src/nnopbase/common/utils/bridge_graph.cpp` and `kernel_graph.cpp`: every
`BuildGraph` call turns one op into a `KernelNode` and one fresh `KernelTensor`
per listed `aclTensor`. The only link between two ops is the *storage* of their
tensors: an `aclStorage` carries an `extend` pointer to the `KernelTensor` that
last listed it as output, and the next op that lists a tensor over the same
storage is made a peer of that `KernelTensor`.

`calcLifeTimeAndSize` then reads the lifetime of an output off its peers.

The `KernelTensor` objects live in a heap `kts` addressed by allocation order;
`KernelTensor::index_`, `type_` and `refTensor_` are not read on this path and
are left out.
-/

namespace OpBase.Mem

open Function (update)

/-- The part of an `aclTensor` the graph and the planner read: its own address,
the address of its `aclStorage`, its element type, and the element count of its
storage shape. A view is another `aclTensor` with the same `storage`. -/
structure AclTensor where
  ptr : Nat
  storage : Nat
  dataType : DataType
  storageShapeSize : Int
deriving DecidableEq, Repr

/-- `KernelTensor::CalcSize` on this tensor. -/
def AclTensor.size (t : AclTensor) : Int := calcSize t.storageShapeSize t.dataType

/-- The tensor lists of one `BuildGraph` call, after `TraitsAclTensor`. A null
element of a tensor list reaches the node as a null input or workspace; a null
output is dereferenced by `BuildKernelNodeImpl` and cannot occur. -/
structure OpCall where
  inputs : List (Option AclTensor)
  outputs : List AclTensor
  workspace : List (Option AclTensor)
deriving Repr

structure KernelTensor where
  aclTensor : Option AclTensor
  peers : List Nat
  ownerNode : Nat

structure KernelNode where
  originalId : Nat
  topoId : Nat
  inputs : List Nat
  outputs : List Nat
  workspace : List Nat

/-- The graph under construction together with the objects it points to:
`kts` holds the `KernelTensor` objects below `nextKt`, and `extend s` is the
`KernelTensor` that storage `s` currently names. -/
structure KernelGraph where
  kts : Nat → KernelTensor
  nextKt : Nat
  kernelNodes : List KernelNode
  extend : Nat → Option Nat

/-- `CreateGraphImpl`, on storages no earlier graph has touched. -/
def KernelGraph.create : KernelGraph :=
  { kts := fun _ => ⟨none, [], 0⟩, nextKt := 0, kernelNodes := [], extend := fun _ => none }

namespace KernelGraph

/-- `new KernelTensor(tensor, 0)` followed by `SetOwnerNode`. -/
def newTensor (g : KernelGraph) (node : Nat) (t : Option AclTensor) : KernelGraph :=
  { g with kts := update g.kts g.nextKt ⟨t, [], node⟩, nextKt := g.nextKt + 1 }

/-- One `KernelTensor` per listed tensor; their addresses are the `ts.length`
addresses from the old `nextKt` on. -/
def newTensors (g : KernelGraph) (node : Nat) (ts : List (Option AclTensor)) : KernelGraph :=
  ts.foldl (fun g t => g.newTensor node t) g

/-- `KernelTensor::AddPeerTensor`. -/
def addPeer (g : KernelGraph) (k peer : Nat) : KernelGraph :=
  { g with kts := update g.kts k { g.kts k with peers := (g.kts k).peers ++ [peer] } }

/-- The first linking loop of `BuildKernelNodeImpl`, for one input. -/
def linkInput (g : KernelGraph) (kt : Nat) : KernelGraph :=
  match (g.kts kt).aclTensor with
  | none => g
  | some t =>
    match g.extend t.storage with
    | none => g
    | some ktp => (g.addPeer ktp kt).addPeer kt ktp

/-- The second linking loop of `BuildKernelNodeImpl`, for one output. -/
def linkOutput (g : KernelGraph) (out : Nat) : KernelGraph :=
  match (g.kts out).aclTensor with
  | none => g
  | some t =>
    match g.extend t.storage with
    | none => { g with extend := update g.extend t.storage (some out) }
    | some outPeer =>
      -- the output of the previous op is used as the output of the current op
      let g := (g.addPeer outPeer out).addPeer out outPeer
      { g with extend := update g.extend t.storage (some out) }

/-- The three allocation loops of `BuildKernelNodeImpl`: a `KernelNode`, numbered
by its position, over one new `KernelTensor` per listed tensor. -/
def newNode (g : KernelGraph) (op : OpCall) : KernelNode × KernelGraph :=
  let node := g.kernelNodes.length
  let inputs := List.range' g.nextKt op.inputs.length
  let g := g.newTensors node op.inputs
  let outputs := List.range' g.nextKt op.outputs.length
  let g := g.newTensors node (op.outputs.map some)
  let workspace := List.range' g.nextKt op.workspace.length
  let g := g.newTensors node op.workspace
  (⟨node, node, inputs, outputs, workspace⟩, g)

/-- `BuildGraph`: `BuildKernelNodeImpl` on the listed tensors, then `AddKernelNode`. -/
def buildGraph (g : KernelGraph) (op : OpCall) : KernelGraph :=
  let (kn, g) := g.newNode op
  let g := kn.inputs.foldl linkInput g
  let g := kn.outputs.foldl linkOutput g
  { g with kernelNodes := g.kernelNodes ++ [kn] }

/-- A sequence of `BuildGraph` calls on a fresh graph. -/
def build (ops : List OpCall) : KernelGraph := ops.foldl buildGraph create

/-- `GetOwnerNode()->GetTopoId()`; in build order a node's `topoId` is its position. -/
def topoId (g : KernelGraph) (k : Nat) : Nat := (g.kts k).ownerNode

/-- The peer loop of `CalcLifeTimeAndSize`: the largest peer position, from the
output's own position up. -/
def lifeTimeEnd (g : KernelGraph) (k : Nat) : Nat :=
  (g.kts k).peers.foldl (fun e p => if g.topoId p > e then g.topoId p else e) (g.topoId k)

end KernelGraph

/-- A `KernelTensor` as `CalcLifeTimeAndSize` hands it to the allocator: its
`aclTensor`, lifetime and size, and the `aclTensor`s its owner node lists as
inputs, which is all `IsInputOf` looks at. -/
structure SortedTensor where
  aclTensor : Option AclTensor
  lifeTimeStart : Nat
  lifeTimeEnd : Nat
  tensorSize : Int
  ownerInputs : List (Option AclTensor)
deriving DecidableEq, Repr

namespace KernelGraph

/-- The entry for a workspace `KernelTensor`: alive for its own op only. A null
tensor has no size; `CalcSize` returns before writing it. -/
def workspaceEntry (g : KernelGraph) (node : KernelNode) (k : Nat) : SortedTensor :=
  { aclTensor := (g.kts k).aclTensor
    lifeTimeStart := node.topoId
    lifeTimeEnd := node.topoId
    tensorSize := match (g.kts k).aclTensor with | none => 0 | some t => t.size
    ownerInputs := node.inputs.map fun i => (g.kts i).aclTensor }

/-- The entry for an output `KernelTensor`, or nothing when its storage is not
backed by the workspace. -/
def outputEntry (g : KernelGraph) (fromWorkspace : Nat → Bool) (node : KernelNode) (k : Nat) :
    Option SortedTensor :=
  match (g.kts k).aclTensor with
  | none => none
  | some t =>
    if fromWorkspace t.storage then
      some { aclTensor := some t
             lifeTimeStart := node.topoId
             lifeTimeEnd := g.lifeTimeEnd k
             tensorSize := t.size
             ownerInputs := node.inputs.map fun i => (g.kts i).aclTensor }
    else none

/-- `CalcLifeTimeAndSize`: `sortedKernelTensors_`, node by node in build order,
workspaces before outputs. -/
def calcLifeTimeAndSize (g : KernelGraph) (fromWorkspace : Nat → Bool) : List SortedTensor :=
  g.kernelNodes.flatMap fun node =>
    node.workspace.map (g.workspaceEntry node) ++
      node.outputs.filterMap (g.outputEntry fromWorkspace node)

end KernelGraph

end OpBase.Mem
