import OpBase.Indv.LaunchArgs
import OpBase.Lib.Spans

/-!
# The buffer of the launch arguments

`individual_op/executor/indv_executor.cpp` and `indv_args.cpp`: the arguments of a launch are
put together in `argsBuf`. When the binary is known, and before its tiling function runs,
`NnopbaseExecutorTilingAndUpdateBinInfo` gives the buffer a size and the tiling data a place
in it: either those it had, or what `NnopbaseCalcArgsSize` adds up. When the launch comes,
`NnopbaseExecutorPrepareParamsExt` puts the pointers in front of the tiling data and
everything else behind: the dump info, the places of the host inputs, the host inputs and the
blocks of the lists, the names of a communication kernel.

What is modelled is where it writes. Its last statement compares `hostInputData` with the end
of the buffer, when all is written.

The size of `aclrtPlaceHolderInfo`, of `rtHostInputInfo_t`, of `NnopbaseHcclCommParamDesc` and
of a pointer is 8. `irNum`, the number of pointers and the size of the dump info are 32-bit
numbers, the counts of places 16-bit numbers. Reading outside the slots, and writing to a null
pointer, is `none`.
-/

namespace OpBase.Indv

open OpBase.Lib

/-- `argsBuf`, and where in it the tiling data begins. -/
@[ext]
structure ArgsBuf where
  size : Nat
  tilingDataOffset : Nat
  begins : tilingDataOffset ≤ size
deriving DecidableEq

/-- `NNOPBASE_MAX_ARGS_BUF_LEN`. -/
def maxArgsBufLen : Nat := 10240

/-- `NNOPBASE_TILING_DATA_OFFSET`. -/
def defaultTilingDataOffset : Nat := 2048

/-- `NNOPBASE_MAX_TILING_DATA_LEN`. -/
def maxTilingDataLen : Nat := maxArgsBufLen - defaultTilingDataOffset

/-- `NNOPBASE_HOST_DATA_LEN`. -/
def hostDataLen : Nat := 1024 * 4

/-- `NNOPBASE_MAX_TENSOR_NUM`. -/
def maxTensorNum : Nat := 50

/-- `NNOPBASE_NORM_MAX_WORKSPACE_NUMS`. -/
def normMaxWorkspaceNums : Nat := 20

/-- `NNOPBAE_AICPU_PARAM_LEN`. -/
def aicpuParamLen : Nat := 32

/-- `NNOPBAE_MC2_AICPU_SUFFIX`. -/
def mc2AicpuSuffix : List Char :=
  ['M', 'c', '2', 'A', 'i', 'c', 'p', 'u', 'K', 'e', 'r', 'n', 'e', 'l']

/-- The buffer of new arguments. -/
def ArgsBuf.new : ArgsBuf := ⟨maxArgsBufLen, defaultTilingDataOffset, by decide⟩

/-- The buffer is never made smaller. -/
def ArgsBuf.resize (b asked : ArgsBuf) : ArgsBuf :=
  ⟨max b.size asked.size, asked.tilingDataOffset, asked.begins.trans (Nat.le_max_right _ _)⟩

/-- `NnopbaseBinInfo`; `isMix` says that `coreType` is `kMix`. -/
structure ArgsBinInfo where
  isStaticShape : Bool
  oomFlag : Bool
  opParaSize : Nat
  isMix : Bool

/-- `NnopbaseExecutor`; `hcomHandle` is the number of handles, `foundStaticBin` says that the
binary was found by the key for static shapes. -/
structure ArgsExecutor where
  inputs : Tensors
  outputs : Tensors
  outPutShapeSize : Nat
  opType : List Byte
  isMc2 : Bool
  hcomHandle : Nat
  isOutEmpty : Bool
  isZeroEleOutputLaunch : Bool
  foundStaticBin : Bool
  binInfo : ArgsBinInfo

/-- What comes from the system: of the collector, whether it launches fused and is for one of
the two chips with a control address, of the settings, whether the dump is on, and which calls
succeed. -/
structure ArgsSystem where
  isMc2FusionLaunch : Bool
  isAscend910bOr93 : Bool
  isArgExceptionDumpEnable : Bool
  getHcomResource : Bool
  getDfxInfoAddr : Bool
  getC2cCtrlAddr : Bool

/-- What tiling leaves: the bytes of its data, the workspaces. For static shapes both come
from the binary. -/
structure Tiled where
  dataSize : Nat
  workspaces : Nat
  admitted : workspaces ≤ normMaxWorkspaceNums

namespace Tensors

/-- The bytes of one list in `NnopbaseExecutorGetDynamicTensorSize`. -/
def dynamicParamSize (ts : Tensors) (p : ParamInstance) : Option Nat :=
  if p.cfgNum = .dynamic then do
    let slots ← ts.ownSlots p
    some (8 + 16 * p.num + 8 * (slots.map fun t => t.rt2Tensor.storageShape.val.length).sum)
  else some 0

/-- `NnopbaseExecutorGetDynamicTensorSize`. -/
def getDynamicTensorSize (ts : Tensors) : Option Nat := do
  let sizes ← ts.instances.mapM ts.dynamicParamSize
  some sizes.sum

end Tensors

namespace ArgsExecutor

/-- `NnopbaseIsEnableZeroeleOutputLaunch`. -/
def isEnableZeroeleOutputLaunch (e : ArgsExecutor) : Bool :=
  !e.isOutEmpty || e.isZeroEleOutputLaunch

def hasTiling (e : ArgsExecutor) : Bool := e.isEnableZeroeleOutputLaunch && !e.foundStaticBin

/-- The parameters of the IR. -/
def irNum (e : ArgsExecutor) : UInt32 :=
  (e.inputs.instances.length + e.outputs.instances.length).toUInt32

/-- The room that is given to the tiling data. -/
def tilingDataSize (e : ArgsExecutor) : Nat :=
  if e.binInfo.opParaSize = 0 then maxTilingDataLen else e.binInfo.opParaSize

/-- There are host inputs, lists or tiling data to have places for. -/
def hasPlaces (e : ArgsExecutor) : Bool :=
  0 < e.inputs.hostInputNum || e.inputs.hasDynamic || e.outputs.hasDynamic ||
    (e.isMc2 && e.hasTiling)

/-- `argsExt.hostInputInfoNum`, where there are places. -/
def hostInputInfoNum (e : ArgsExecutor) : Nat :=
  (e.inputs.hostInputNum + (e.inputs.dynamicNum + e.outputs.dynamicNum) % 2 ^ 16) % 2 ^ 16

/-! ## The size -/

/-- What `NnopbaseCalcArgsSize` adds for places and host inputs. -/
def calcPlaces (e : ArgsExecutor) : Nat :=
  if e.hasPlaces then
    e.hostInputInfoNum * 8 * (if e.isMc2 then 2 else 1) +
      ArgsAddr.alignedSize e.inputs.hostInputSize + (if e.isMc2 && e.hasTiling then 8 else 0)
  else 0

/-- What it adds for the names of a communication kernel. -/
def calcMc2 (sys : ArgsSystem) (e : ArgsExecutor) : Nat :=
  if e.isMc2 then
    aicpuParamLen * 2 + (e.opType.length + mc2AicpuSuffix.length) +
      (if sys.isMc2FusionLaunch then 8 else 0)
  else 0

/-- What it adds for the tiling data and the blocks of lists. -/
def calcTiling (e : ArgsExecutor) : Option Nat :=
  if e.hasTiling then do
    let inputs ← e.inputs.getDynamicTensorSize
    let outputs ← e.outputs.getDynamicTensorSize
    some (e.tilingDataSize + inputs + outputs)
  else some 0

/-- `NnopbaseCalcArgsSize`: the bytes, and where the tiling data is to begin. -/
def calcArgsSize (sys : ArgsSystem) (e : ArgsExecutor) : Option ArgsBuf := do
  let dynamicSize ← e.calcTiling
  let mc2Size := if e.isMc2 then e.hcomHandle * 8 + 8 else 0
  let slots := (e.irNum.toNat + normMaxWorkspaceNums + 3) * 8 + mc2Size
  let shape := if e.outPutShapeSize ≠ 0 then 8 else 0
  let oom := (e.irNum.toNat + normMaxWorkspaceNums + 1) * 8
  some
    { size := slots + 2 * shape + oom + dynamicSize + e.calcPlaces + e.calcMc2 sys
      tilingDataOffset := slots + shape
      begins := by omega }

/-- `NnopbaseExecutorTilingAndUpdateBinInfo` up to the tiling. -/
def tilingAndUpdateBinInfo (sys : ArgsSystem) (e : ArgsExecutor) (b : ArgsBuf) : Option ArgsBuf :=
  if e.foundStaticBin then some b
  else
    let ioNum := (e.inputs.num + e.outputs.num).toUInt32
    let argSize := e.inputs.hostInputSize + e.tilingDataSize + hostDataLen
    if maxTensorNum < ioNum.toNat ∨ maxArgsBufLen < argSize ∨
        maxTilingDataLen < e.tilingDataSize then
      (e.calcArgsSize sys).map b.resize
    else some b

/-! ## Where is written -/

/-- Without workspaces there is a slot for one. -/
def workspaceNum (t : Tiled) : Nat := if t.workspaces = 0 then 1 else t.workspaces

/-- `mc2Num` of `NnopbaseExecutorGetMc2Num`; `groupNum` is a field of four bits. -/
def mc2Num (sys : ArgsSystem) (e : ArgsExecutor) : Nat :=
  let groupNum := e.hcomHandle % 2 ^ 4
  if e.isMc2 then (if sys.isMc2FusionLaunch then groupNum else groupNum + 1) else 0

/-- `num`: the slots that are provided for. -/
def slotNum (sys : ArgsSystem) (t : Tiled) (e : ArgsExecutor) : UInt32 :=
  let num := (e.inputs.instances.length + e.outputs.instances.length + workspaceNum t + 3 +
    e.mc2Num sys).toUInt32
  if e.outPutShapeSize ≠ 0 then num + 1 else num

/-- `args`: where the slots begin. -/
def args (sys : ArgsSystem) (t : Tiled) (b : ArgsBuf) (e : ArgsExecutor) : Int :=
  if e.hasTiling then b.tilingDataOffset - (e.slotNum sys t).toNat * 8 else 0

/-- The first slot has the control address. -/
def hasCtrlAddr (sys : ArgsSystem) (e : ArgsExecutor) : Bool :=
  sys.isAscend910bOr93 && e.binInfo.isMix

/-- The slots that are written, if so many are for inputs and outputs: in front, unless the
launch is fused, the description of the communication, then the control address, the
contexts, inputs and outputs, the output shapes, the workspaces, the tiling data, the overflow
address. -/
def slotsWritten (sys : ArgsSystem) (t : Tiled) (ioNum : Nat) (e : ArgsExecutor) : Nat :=
  (if e.isMc2 && !sys.isMc2FusionLaunch then 1 else 0) + (if e.hasCtrlAddr sys then 1 else 0) +
    (if e.isMc2 then e.hcomHandle else 0) + ioNum +
    (if e.outPutShapeSize ≠ 0 then 1 else 0) + workspaceNum t + (if e.hasTiling then 1 else 0) + 1

/-- Where the info behind the tiling data begins. -/
def behindTiling (t : Tiled) (b : ArgsBuf) (e : ArgsExecutor) : Nat :=
  b.tilingDataOffset + if e.binInfo.oomFlag then ArgsAddr.alignedSize t.dataSize else t.dataSize

/-- `oomSize` of `NnopbaseExecutorArgsGetDfxInfo`. -/
def oomSize (t : Tiled) (e : ArgsExecutor) : UInt32 :=
  let oomSize := ((e.inputs.instances.length + e.outputs.instances.length + workspaceNum t +
    (if e.isMc2 then e.hcomHandle else 0)) * 8).toUInt32
  if e.outPutShapeSize ≠ 0 then oomSize + 8 else oomSize

/-- The info for the detection of accesses out of bounds. -/
def oomInfo (t : Tiled) (e : ArgsExecutor) : Nat :=
  if e.binInfo.oomFlag then (e.oomSize t).toNat else 0

/-- The index of the dump. -/
def atomicIndex (sys : ArgsSystem) : Nat := if sys.isArgExceptionDumpEnable then 8 else 0

/-- `ptr`, where the rest begins. -/
def ptr (sys : ArgsSystem) (t : Tiled) (b : ArgsBuf) (e : ArgsExecutor) : Nat :=
  if e.hasTiling then e.behindTiling t b + e.oomInfo t + atomicIndex sys
  else (e.slotNum sys t).toNat * 8

/-- `hostInputInfo`, `aicpuHostInputInfo` and `hostInputData` before anything is written
there. -/
structure Places where
  hostInputInfo : Option Nat
  aicpuHostInputInfo : Option Nat
  hostInputData : Nat

/-- The places at `ptr`. A fused launch has one more in front, any other launch with
communication a second row, one longer. -/
def places (sys : ArgsSystem) (ptr : Nat) (e : ArgsExecutor) : Places :=
  if e.hasPlaces then
    let num := e.hostInputInfoNum
    if e.isMc2 then
      if sys.isMc2FusionLaunch then ⟨some (ptr + 8), none, ptr + (num + 1) % 2 ^ 16 * 8⟩
      else ⟨some ptr, some (ptr + num * 8), ptr + ((num + 1) % 2 ^ 16 + num) * 8⟩
    else ⟨some ptr, none, ptr + num * 8⟩
  else ⟨none, none, ptr⟩

/-- The rows with `n` entries. -/
def rows (p : Places) (n : Nat) : Option (List Span) :=
  match p.hostInputInfo with
  | none => if n = 0 then some [] else none
  | some info =>
    some (Span.items info 8 n ++
      (p.aicpuHostInputInfo.map fun aicpu : Nat => Span.items aicpu 8 n).getD [])

/-- The place of the tiling data: in front of a row, or at the end of the second one. -/
def tilingPlace (sys : ArgsSystem) (ptr : Nat) (p : Places) (n : Nat) (e : ArgsExecutor) :
    List Span :=
  if e.isMc2 && e.hasTiling then
    if sys.isMc2FusionLaunch then [.ofNat ptr 8]
    else (p.aicpuHostInputInfo.map fun aicpu : Nat => Span.ofNat (aicpu + n * 8) 8).toList
  else []

/-- `NnopbasePrepareMC2Params` at `hostInputData`: the names of the library, the kernel and
the operator, and for a fused launch the description of the communication. -/
def prepareMc2Params (sys : ArgsSystem) (hostInputData : Nat) (e : ArgsExecutor) : List Span :=
  if e.isMc2 then
    let opName := e.opType.length + mc2AicpuSuffix.length
    let behind := hostInputData + 2 * aicpuParamLen
    [.ofNat hostInputData aicpuParamLen, .ofNat (hostInputData + aicpuParamLen) aicpuParamLen,
        .ofNat behind opName] ++
      (if sys.isMc2FusionLaunch then [.ofNat (behind + ArgsAddr.alignedSize opName) 8] else [])
  else []

/-- What tiling and `NnopbaseExecutorArgsGetDfxInfo` have written. -/
def tilingSpans (sys : ArgsSystem) (t : Tiled) (b : ArgsBuf) (e : ArgsExecutor) : List Span :=
  if e.hasTiling then
    [.ofNat b.tilingDataOffset t.dataSize, .ofNat (e.behindTiling t b) (e.oomInfo t)] ++
      (if sys.getDfxInfoAddr then [.ofNat (e.behindTiling t b + e.oomInfo t) (atomicIndex sys)]
        else [])
  else []

/-- A call fails, and nothing else is written. -/
def stopsEarly (sys : ArgsSystem) (e : ArgsExecutor) : Bool :=
  e.hasTiling && sys.isArgExceptionDumpEnable && !sys.getDfxInfoAddr ||
    e.hasCtrlAddr sys && !sys.getC2cCtrlAddr

/-- What is written in the loops over inputs and outputs and after them. The bytes up to
`stored` are written but for gaps, which lie in front of a byte that is. -/
def argSpans (sys : ArgsSystem) (t : Tiled) (b : ArgsBuf) (e : ArgsExecutor) :
    Option (List Span) := do
  let ptr := e.ptr sys t b
  let places := e.places sys ptr
  -- what was there before stays in the gaps; it does not matter where
  let io ← Tensors.prepareIoParamsExt e.inputs e.outputs (fun _ => 0) e.binInfo.isStaticShape
    ⟨[], [], [], 0⟩
  let rows ← rows places io.hostInputInfo.length
  some (Span.items (e.args sys t b) 8 (e.slotsWritten sys t io.addr.length) ++ rows ++
    e.tilingPlace sys ptr places io.hostInputInfo.length ++
    [.ofNat places.hostInputData io.stored] ++
    e.prepareMc2Params sys (places.hostInputData + io.hostInputData.length))

/-- `NnopbaseExecutorPrepareParamsExt`: where is written, the tiling data included. -/
def prepareParamsExt (sys : ArgsSystem) (t : Tiled) (b : ArgsBuf) (e : ArgsExecutor) :
    Option (List Span) :=
  if !e.isEnableZeroeleOutputLaunch then some []
  else if e.isMc2 && !sys.getHcomResource then some []
  else if e.stopsEarly sys then some (e.tilingSpans sys t b)
  else do
    let spans ← e.argSpans sys t b
    some (e.tilingSpans sys t b ++ spans)

end ArgsExecutor

end OpBase.Indv
