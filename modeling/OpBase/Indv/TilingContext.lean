import OpBase.Indv.AddTensors
import OpBase.Lib.Extents

/-!
# The tiling context of an executor

`individual_op/executor/indv_tilingcontext_builder.cpp` and `indv_compute_node_info.cpp`: the
tiling function of an op is called with a context in two pieces. A table of values points to
the tensors and to where results go; it is allocated with the executor. A buffer describes the
op: behind a header lie, one after the other, an anchor for each input of the IR, a descriptor
for each tensor, the attributes (a table of their offsets, then their bytes) and an anchor for
each output.

The context is kept from launch to launch. It is laid out anew, in a larger buffer if need be,
as long as the numbers of tensors may change; otherwise the first layout stays, and a launch
only writes descriptors and attributes into it. What a launch writes is modelled by its extents
in the buffer and its places in the table. Allocating does not fail.
-/

namespace OpBase.Indv

open OpBase.Lib

/-- What the structures of GE measure. The elements of a vector begin within the size of its
head, and the outputs of a tiling context go as far as they are used. -/
structure GeSizes where
  anchorInstanceInfo : Nat
  compileTimeTensorDesc : Nat
  continuousVector : Nat
  vectorElements : Nat
  vectorElements_le : vectorElements ≤ continuousVector
  tilingOutputNum : Nat
  tilingOutputNum_ge : 9 ≤ tilingOutputNum

/-! ## Attributes -/

/-- `NnopbaseAttrAddr`; `size` bytes, in elements of `elementSize` if it is a vector. -/
structure AttrAddr where
  size : Nat
  elementSize : Nat
deriving DecidableEq

def AttrAddr.isVector (a : AttrAddr) : Bool := a.elementSize ≠ 0

/-- `NnopbaseAttrs`. -/
structure Attrs where
  attrs : List AttrAddr
  totalSize : Nat
deriving DecidableEq

/-! ## The context -/

/-- `sizeof(NnopbaseComputeNodeInfo)`; the last word is where the description begins. -/
def computeNodeInfo : Nat := 88

/-- `offsetof(NnopbaseComputeNodeInfo, place_holder)`, where `instStart` is. -/
def instStart : Nat := 80

/-- `NNOPBASE_COMPUTE_NODE_BUF_LEN` -/
def computeNodeBufLen : Nat := 4096

/-- `NNOPBASE_COMPUTE_NODE_BUF_LEN_EXT` -/
def computeNodeBufLenExt : Nat := 128

/-- `sizeof(NnopbaseRuntimeAttrsDef)` -/
def runtimeAttrsDef : Nat := 48

/-- `kInputsAppendEnd` -/
def inputsAppendEnd : Nat := 4

/-- `NnopbaseComputeNodeInfoExt` and the node in its buffer. Pointers are offsets from the
start of the buffer. -/
structure NodeExt where
  bufLen : Nat
  irInputsNum : Nat
  irOutputsNum : Nat
  inputsNum : Nat
  outputsNum : Nat
  attrSize : Nat
  inputTdStart : Nat
  outputTdStart : Nat
  attrStart : Nat
  outputInstStart : Nat
deriving DecidableEq

/-- `NnopbaseKernelRunContextExt`. `valuesNum` is what the table is allocated for, `inputSize`
the number of its entries in front of the results. -/
structure TilingContext where
  node : NodeExt
  valuesNum : Nat
  inputSize : Nat
  hasPrepared : Bool
deriving DecidableEq

/-- What the executor has when its tiling context is built. -/
structure TilingCall where
  inputs : Tensors
  outputs : Tensors
  attrs : Attrs

/-- `NnopbaseGetKernelRunContextValuesInitNum`. -/
def valuesInitNum (abi : GeSizes) (inputs outputs : Tensors) : Nat :=
  let num := inputs.nonDynamicCnt + outputs.nonDynamicCnt + inputsAppendEnd + abi.tilingOutputNum
  if inputs.hasDynamic || outputs.hasDynamic then
    num + (inputs.dynamicNum * dynamicParamDefNum + outputs.dynamicNum * dynamicParamDefNum)
  else num

/-- `NnopbaseComputeNodeInfoInit`. -/
def NodeExt.init : NodeExt :=
  ⟨computeNodeInfo + computeNodeBufLen, 0, 0, 0, 0, 0, 0, 0, 0, 0⟩

namespace TilingContext

/-- `NnopbaseTilingContextInit`. -/
def init (abi : GeSizes) (inputs outputs : Tensors) : TilingContext :=
  ⟨.init, valuesInitNum abi inputs outputs, 0, false⟩

/-! ## The layout -/

/-- `NnopbaseComputeNodeCalcLen`. -/
def calcLen (abi : GeSizes) (node : NodeExt) (attrs : Attrs) : Nat :=
  node.irInputsNum * abi.anchorInstanceInfo + node.irOutputsNum * abi.anchorInstanceInfo +
    (node.outputsNum + node.inputsNum) * abi.compileTimeTensorDesc + runtimeAttrsDef +
    attrs.totalSize + 8 * attrs.attrs.length + computeNodeBufLenExt

/-- The first part of `NnopbaseComputeNodeInfoUpdt`: the numbers, and a buffer for them. -/
def sizeNode (abi : GeSizes) (c : TilingContext) (call : TilingCall) : NodeExt :=
  let node := if c.hasPrepared then c.node else
    { c.node with
      irInputsNum := call.inputs.instances.length
      irOutputsNum := call.outputs.instances.length }
  let node :=
    { node with
      inputsNum := call.inputs.num
      outputsNum := call.outputs.num
      attrSize := runtimeAttrsDef + call.attrs.totalSize + 8 * call.attrs.attrs.length }
  if call.attrs.attrs.length ≠ 0 ∨ call.inputs.hasDynamic ∨ call.outputs.hasDynamic then
    let size := calcLen abi node call.attrs
    if size + computeNodeInfo > node.bufLen then
      { node with bufLen := computeNodeInfo + size }
    else node
  else node

/-- The second part: where things begin. -/
def placeNode (abi : GeSizes) (node : NodeExt) (call : TilingCall) : NodeExt :=
  let inputTdStart := instStart + abi.anchorInstanceInfo * call.inputs.instances.length
  let outputTdStart := inputTdStart + abi.compileTimeTensorDesc * node.inputsNum
  let attrStart := outputTdStart + abi.compileTimeTensorDesc * node.outputsNum
  { node with
    inputTdStart := inputTdStart
    outputTdStart := outputTdStart
    attrStart := attrStart
    outputInstStart := attrStart + node.attrSize }

/-- `NnopbaseComputeNodeSetInstInfo` for every parameter: what is written, and whether none is
refused. -/
def setInstInfos (abi : GeSizes) (irNum count start : Nat) : List Extent × Bool :=
  (Extent.items start abi.anchorInstanceInfo (min count irNum), count ≤ irNum)

/-- What a call writes, which entries of the table it uses, and whether it comes to its end. -/
structure Built where
  context : TilingContext
  writes : List Extent
  values : List Nat
  ok : Bool

/-- `NnopbaseTilingContextUpdtPrepare`. -/
def updtPrepare (abi : GeSizes) (c : TilingContext) (call : TilingCall) : Built :=
  let node := placeNode abi (c.sizeNode abi call) call
  let (inputInfos, ok) := setInstInfos abi node.irInputsNum call.inputs.instances.length instStart
  if !ok then ⟨{ c with node }, inputInfos, [], false⟩
  else
    let (outputInfos, ok) :=
      setInstInfos abi node.irOutputsNum call.outputs.instances.length node.outputInstStart
    if !ok then ⟨{ c with node }, inputInfos ++ outputInfos, [], false⟩
    else
      let inputSize := call.inputs.num + call.outputs.num + inputsAppendEnd
      ⟨{ c with node, inputSize }, inputInfos ++ outputInfos, [], true⟩

/-- The results that `NnopbaseTilingSetContextOutputStep1` looks up: key, block dimension,
atomic flag, schedule mode and the block dimension of the AI CPU. -/
def resultIndices (inputSize : Nat) : List Nat :=
  [inputSize, inputSize + 1, inputSize + 2, inputSize + 6, inputSize + 8]

/-- The context need not be as the last call left it. -/
def relays (c : TilingContext) (call : TilingCall) : Bool :=
  !c.hasPrepared || call.inputs.hasDynamic || call.outputs.hasDynamic ||
    call.inputs.requiredCnt < call.inputs.nonDynamicCnt

/-- The first part of `NnopbaseTilingContextBuild`. -/
def prepare (abi : GeSizes) (c : TilingContext) (call : TilingCall) : Built :=
  if c.relays call then
    let b := c.updtPrepare abi call
    if !b.ok then b
    else
      let index := call.inputs.num + call.outputs.num
      { b with
        context := { b.context with hasPrepared := true }
        values := [index, index + 2, index + 3] ++ resultIndices b.context.inputSize }
  else ⟨c, [], [], true⟩

/-! ## Tensors and attributes -/

/-- The loop of `NnopbaseTilingBuildOpInputs` and `NnopbaseTilingBuildOpOutputs`: a tensor that
is null has no descriptor. -/
def tensorDescs (abi : GeSizes) (start : Nat) (ts : Tensors) : List Extent :=
  ((List.range ts.num).filter fun i => (ts.extTensors[i]?).any fun t => !t.isNull).map fun i =>
    ⟨start + abi.compileTimeTensorDesc * i, abi.compileTimeTensorDesc⟩

/-- `memcpy_s` refuses no bytes and too many. -/
def copies (size : Nat) : Bool := 0 < size ∧ size ≤ 0x7fffffff

/-- The body of the loop of `NnopbaseComputeNodeAttrsUpdt`; `base` is where the attributes
begin, `i` the number of this one and `offset` where its bytes go. A copy that is refused ends
the call. -/
def attrWrites (abi : GeSizes) (base : Nat) : Nat → Nat → List AttrAddr → List Extent
  | _, _, [] => []
  | i, offset, a :: as =>
    let head := if a.isVector then [(⟨base + offset, abi.vectorElements⟩ : Extent)] else []
    let start := if a.isVector then offset + abi.vectorElements else offset
    let next := offset + a.size + if a.isVector then abi.continuousVector else 0
    ⟨base + runtimeAttrsDef + 8 * i, 8⟩ :: (head ++
      if copies a.size then ⟨base + start, a.size⟩ :: attrWrites abi base (i + 1) next as else [])

/-- `NnopbaseComputeNodeAttrsUpdt`. -/
def attrsUpdt (abi : GeSizes) (base : Nat) (attrs : Attrs) : List Extent :=
  ⟨base, 8⟩ :: attrWrites abi base 0 (runtimeAttrsDef + 8 * attrs.attrs.length) attrs.attrs

/-- `NnopbaseTilingContextBuild`. -/
def build (abi : GeSizes) (c : TilingContext) (call : TilingCall) : Built :=
  let b := c.prepare abi call
  if !b.ok then b
  else
    let node := b.context.node
    let inputSize := b.context.inputSize
    let platformInfo := call.inputs.num + call.outputs.num + 1
    { b with
      writes := b.writes ++ (tensorDescs abi node.inputTdStart call.inputs ++
        tensorDescs abi node.outputTdStart call.outputs ++
        if call.attrs.attrs.length > 0 then attrsUpdt abi node.attrStart call.attrs else [])
      values := b.values ++ (platformInfo :: resultIndices inputSize ++
        [inputSize + 3, inputSize + 4] ++ List.range call.inputs.num ++
        (List.range call.outputs.num).map (call.inputs.num + ·)) }

/-- The context after a call. -/
def step (abi : GeSizes) (c : TilingContext) (call : TilingCall) : Option TilingContext :=
  some (c.build abi call).context

end TilingContext

end OpBase.Indv
