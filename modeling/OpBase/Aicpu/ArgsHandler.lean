import OpBase.Aicpu.CCArgs
import OpBase.Lib.Extents

/-!
# The buffer an AICPU kernel is launched with

`nnopbase/aicpu/task_handler/aicpu_args_handler.cpp`: a builder lays a buffer out once, for a
kernel of the device's own (`BuildCCArgs`) or of TensorFlow (`BuildTfArgs`). Each launch then
writes the addresses into it. An input that lies on the host is copied into the buffer, as
long as there is room in the 1024 bytes reserved for that, and `hostInputInfo_` tells the
runtime which slot is to point at which offset; further ones go to a cache on the device.

Offsets are `size_t`, the ones told to the runtime have 32 bits. What the runtime's own copy
to the device says is a parameter, and so is what `GetSizeInBytes` says of a tensor.
-/

namespace OpBase.Aicpu

open OpBase.Lib

def kMaxTotalHostLen : Nat := 1024

/-- `SECUREC_MEM_MAX_LEN` -/
def memMaxLen : Nat := 0x7fffffff

/-- `memcpy_s`: what it leaves behind, and whether it succeeds. The destination is cleared
where the source is longer. -/
def memcpyS (m : Mem) (dest destMax : Nat) (src : Str) : Mem × Bool :=
  if destMax = 0 ∨ memMaxLen < destMax then (m, false)
  else if destMax < src.size then (m.place dest (Str.fill destMax 0), false)
  else (m.place dest src, true)

def roundUp (originValue multipleOf : Nat) : Nat :=
  if multipleOf = 0 then 0
  else (originValue + multipleOf - 1) % 2 ^ 64 / multipleOf * multipleOf

/-! ## The handler -/

/-- What a handler has from its builder on. -/
structure ArgsLayout where
  ioNum : Nat
  needDeviceExt : Bool
  ioAddrOffset : Nat := 0
  extInfoOffset : Nat := 0
  hostMemOffset : Nat := 0
  soNameOffset : Nat := 0
  kernelNameOffset : Nat := 0
  taskInfoOffset : Nat := 0
  extInfoSize : Nat := 0
  bufferSize : Nat := 0
  alignBytes : Nat := 4

/-- `AicpuArgsHandler`, with the fields of `args_` that it assigns. Of the pointer to the
device cache, null is 0. -/
structure ArgsHandler extends ArgsLayout where
  hostBuffer : Mem := fun _ => 0
  hostInputInfo : List (UInt32 × UInt32) := []
  deviceCache : UInt64 := 0
  deviceCacheSize : UInt64 := 0
  hostInputSize : Nat := 0
  argsSize : UInt32 := 0
  hostInputInfoNum : UInt16 := 0
  soNameAddrOffset : UInt32 := 0
  kernelNameAddrOffset : UInt32 := 0

namespace ArgsHandler

/-- `MallocMem` -/
def mallocMem (h : ArgsHandler) : ArgsHandler :=
  { h with
    hostBuffer := fun _ => 0
    argsSize := UInt32.ofNat h.bufferSize
    hostInputInfoNum := 0
    soNameAddrOffset := UInt32.ofNat h.soNameOffset
    kernelNameAddrOffset := UInt32.ofNat h.kernelNameOffset }

def resetHostInputInfo (h : ArgsHandler) : ArgsHandler :=
  { h with
    hostInputSize := 0
    deviceCacheSize := 0
    deviceCache := 0
    hostInputInfo := []
    hostInputInfoNum := 0 }

/-- `hostInputInfo_.emplace_back` -/
def emplaceInfo (h : ArgsHandler) (addrOffset dataOffset : Nat) : ArgsHandler :=
  { h with hostInputInfo :=
      h.hostInputInfo ++ [(UInt32.ofNat addrOffset, UInt32.ofNat dataOffset)] }

/-- `AddHostInput`, and whether it succeeds. -/
def addHostInput (h : ArgsHandler) (idx : Nat) (data : Str) (alignSize : Nat) :
    ArgsHandler × Bool :=
  if kMaxTotalHostLen < (h.hostInputSize + alignSize) % 2 ^ 64 then (h, false)
  else
    let remainSize := (2 ^ 64 + kMaxTotalHostLen - h.hostInputSize) % 2 ^ 64
    let hostDataOffset := (h.hostMemOffset + h.hostInputSize) % 2 ^ 64
    let copied := if 0 < data.size then memcpyS h.hostBuffer hostDataOffset remainSize data
      else (h.hostBuffer, true)
    let h := { h with hostBuffer := copied.1 }
    if copied.2 = false then (h, false)
    else
      let hostAddrOffset := (h.ioAddrOffset + idx * 8) % 2 ^ 64
      let h := { h with hostInputInfoNum := h.hostInputInfoNum + 1 }
      let h := h.emplaceInfo hostAddrOffset hostDataOffset
      if h.hostInputInfoNum.toNat ≠ h.hostInputInfo.length then (h, false)
      else ({ h with hostInputSize := (h.hostInputSize + alignSize) % 2 ^ 64 }, true)

/-- The slot of tensor `i`. -/
def storeAddr (h : ArgsHandler) (i : Nat) (addr : UInt64) : ArgsHandler :=
  { h with hostBuffer := h.hostBuffer.store (h.ioAddrOffset + i * 8) 8 addr.toNat }

end ArgsHandler

/-! ## A launch -/

/-- `op::TensorPlacement` -/
inductive Placement
  | onDeviceHbm
  | onHost
  | other
  deriving DecidableEq

/-- A tensor of a launch: where it is, its address, what `GetSizeInBytes` says of it, and what
the host has at its address. -/
structure IoTensor where
  placement : Placement
  data : UInt64
  size : Int64
  content : Mem

/-- What else a launch has: the executor's workspace, what of it is left for the cache, and
for which inputs the runtime's copy succeeds. -/
structure LaunchEnv where
  workspaceAddr : UInt64
  deviceCacheOffset : UInt64
  deviceCacheRsvSize : UInt64
  memcpyAsync : Nat → Bool

namespace ArgsHandler

variable (env : LaunchEnv)

/-- `GetDeviceCacheAddr` -/
def getDeviceCacheAddr (h : ArgsHandler) : ArgsHandler × UInt64 :=
  let h := if h.deviceCache = 0 then
    { h with deviceCache := env.workspaceAddr + env.deviceCacheOffset } else h
  (h, h.deviceCache + h.deviceCacheSize)

/-- A host input for which the reserve has no room. -/
def addDeviceInput (h : ArgsHandler) (i alignSize : Nat) : ArgsHandler × Bool :=
  if env.deviceCacheRsvSize < h.deviceCacheSize + UInt64.ofNat alignSize then (h, false)
  else
    let (h, deviceAddr) := h.getDeviceCacheAddr env
    if env.memcpyAsync i = false then (h, false)
    else
      let h := h.storeAddr i deviceAddr
      ({ h with deviceCacheSize := h.deviceCacheSize + UInt64.ofNat alignSize }, true)

/-- The first loop of `UpdateIoAddr`, for input `i`. -/
def updateInput (h : ArgsHandler) (i : Nat) (t : IoTensor) : ArgsHandler × Bool :=
  match t.placement with
  | .onHost =>
    if t.size < 0 then (h, false)
    else
      let hostTensorSize := t.size.toInt.toNat
      let alignSize := roundUp hostTensorSize h.alignBytes
      if (h.hostInputSize + alignSize) % 2 ^ 64 ≤ kMaxTotalHostLen then
        h.addHostInput i ⟨hostTensorSize, t.content⟩ alignSize
      else h.addDeviceInput env i alignSize
  | _ => (h.storeAddr i t.data, true)

def updateInputs : ArgsHandler → Nat → List IoTensor → ArgsHandler × Bool
  | h, _, [] => (h, true)
  | h, i, t :: ts =>
    let r := h.updateInput env i t
    if r.2 then updateInputs r.1 (i + 1) ts else r

/-- The second loop. -/
def updateOutputs : ArgsHandler → Nat → List IoTensor → ArgsHandler × Bool
  | h, _, [] => (h, true)
  | h, i, t :: ts =>
    if t.placement ≠ .onDeviceHbm then (h, false)
    else updateOutputs (h.storeAddr i t.data) (i + 1) ts

/-- `UpdateIoAddr` -/
def updateIoAddr (h : ArgsHandler) (inputs outputs : List IoTensor) : ArgsHandler × Bool :=
  let r := h.updateInputs env 0 inputs
  if r.2 then r.1.updateOutputs inputs.length outputs else r

end ArgsHandler

/-- What a launch is given. -/
structure LaunchCall where
  deviceExtInfoAddr : UInt64
  env : LaunchEnv
  inputs : List IoTensor
  outputs : List IoTensor

/-- The buffer of a launch, and whether it succeeds so far. `UpdateDeviceExtInfoAddr` is the
handler's own. -/
def ArgsHandler.launch (updateDeviceExtInfoAddr : ArgsHandler → UInt64 → ArgsHandler)
    (h : ArgsHandler) (c : LaunchCall) : ArgsHandler × Bool :=
  (updateDeviceExtInfoAddr h c.deviceExtInfoAddr).updateIoAddr c.env c.inputs c.outputs

/-! ## The builders -/

namespace AicpuCCArgsHandler

variable (A : Adapter)

def customSoName : List Byte :=
  "custom_sub_repository.so".toList.map fun c => UInt8.ofNat c.toNat

/-- The offsets of `BuildCCArgs`. -/
def layout (ioNum : Nat) (needDeviceExt : Bool) (argSize kernelNameSize soNameSize
    extInfoSize : Nat) : ArgsLayout :=
  let kernelNameOffset := (argSize + ioNum * 8) % 2 ^ 64
  let soNameOffset := (kernelNameOffset + kernelNameSize) % 2 ^ 64
  let extInfoOffset := (soNameOffset + soNameSize) % 2 ^ 64
  let hostMemOffset := (extInfoOffset + extInfoSize) % 2 ^ 64
  let bufferSize := (hostMemOffset + kMaxTotalHostLen) % 2 ^ 64
  { ioNum, needDeviceExt, kernelNameOffset, soNameOffset, extInfoOffset, hostMemOffset,
    bufferSize, extInfoSize, ioAddrOffset := A.paramHead.size }

/-- `BuildCCArgs`. The head is checked on the copy of the block. -/
def buildCCArgs (ioNum : Nat) (needDeviceExt : Bool) (argData : Str) (kernelName soName : List Byte)
    (extInfoSize : Nat) : Option ArgsHandler :=
  let kernelNameSize := kernelName.length + 1
  let soNameSize := soName.length + 1
  let h : ArgsHandler :=
    { toArgsLayout := layout A ioNum needDeviceExt argData.size kernelNameSize soNameSize
        extInfoSize }
  let h := h.mallocMem
  let copied := memcpyS h.hostBuffer 0 h.bufferSize argData
  if copied.2 = false then none
  else do
    let block ← setHostArgs A ioNum ⟨h.bufferSize, copied.1⟩ extInfoSize
    let copied := memcpyS block.byte h.kernelNameOffset kernelNameSize
      (Str.ofList (kernelName ++ [0]))
    if copied.2 = false then none
    else
      let copied := memcpyS copied.1 h.soNameOffset soNameSize (Str.ofList (soName ++ [0]))
      if copied.2 = false then none
      else
        let h := { h with hostBuffer := copied.1 }
        some (if soName = customSoName then
          { h with soNameAddrOffset := 0, kernelNameAddrOffset := 0 } else h)

def setOffsetArgs (h : ArgsHandler) : ArgsHandler :=
  let h := h.resetHostInputInfo
  if h.needDeviceExt then h
  else { h with hostInputInfoNum := 1 }.emplaceInfo (A.paramHead.off .extInfoAddr) h.extInfoOffset

/-- `UpdateDeviceExtInfoAddr` -/
def updateDeviceExtInfoAddr (h : ArgsHandler) (deviceExtInfoAddr : UInt64) : ArgsHandler :=
  let h := setOffsetArgs A h
  { h with hostBuffer := A.paramHead.set h.hostBuffer 0 .extInfoAddr deviceExtInfoAddr.toNat }

end AicpuCCArgsHandler

/-- `STR_FWK_OP_KERNEL`, as far as the handler names its fields. -/
inductive FwkField
  | opType
  | sessionID
  | stepIDAddr
  | kernelID
  | workspaceBaseAddr
  | inputOutputAddr
  | extInfoLen
  | extInfoAddr
  deriving DecidableEq

def FwkField.width : FwkField → Nat
  | opType => 4
  | _ => 8

/-- What comes with the headers of the TensorFlow adapter: the layout, and the code of
`FWK_ADPT_KERNEL_RUN_NO_SESS`. -/
structure FwkAdapter where
  fwkOpKernel : Packed FwkField FwkField.width
  runNoSess : Nat

namespace AicpuTfArgsHandler

variable (F : FwkAdapter)

/-- The offsets of `BuildTfArgs`; the input address must align 64 bytes. -/
def layout (ioNum : Nat) (needDeviceExt : Bool) (taskInfoSize extInfoSize : Nat) : ArgsLayout :=
  let taskInfoOffset := F.fwkOpKernel.size
  let ioAddrOffset := (taskInfoOffset + taskInfoSize) % 2 ^ 64
  let extInfoOffset := (ioAddrOffset + ioNum * 8) % 2 ^ 64
  let hostMemOffset := (extInfoOffset + extInfoSize) % 2 ^ 64
  let soNameOffset := (hostMemOffset + kMaxTotalHostLen) % 2 ^ 64
  let kernelNameOffset := (soNameOffset + 8) % 2 ^ 64
  let bufferSize := (kernelNameOffset + 8) % 2 ^ 64
  { ioNum, needDeviceExt, taskInfoOffset, ioAddrOffset, extInfoOffset, hostMemOffset, soNameOffset,
    kernelNameOffset, bufferSize, extInfoSize, alignBytes := 64 }

/-- What `BuildTfArgs` assigns in the structure. -/
def fillFwkOpKernel (fwkOpKernel : Mem) (extInfoSize : Nat) (kernelId : UInt64) : Mem :=
  let m := F.fwkOpKernel.set fwkOpKernel 0 .extInfoLen extInfoSize
  let m := F.fwkOpKernel.set m 0 .kernelID kernelId.toNat
  let m := F.fwkOpKernel.set m 0 .opType F.runNoSess
  let m := F.fwkOpKernel.set m 0 .sessionID (2 ^ 64 - 1)
  F.fwkOpKernel.set m 0 .stepIDAddr 0

/-- `BuildTfArgs` -/
def buildTfArgs (ioNum : Nat) (needDeviceExt : Bool) (fwkOpKernel : Mem) (taskInfo : Str)
    (extInfoSize : Nat) (kernelId : UInt64) : Option ArgsHandler :=
  let h : ArgsHandler :=
    { toArgsLayout := layout F ioNum needDeviceExt taskInfo.size extInfoSize }
  let h := h.mallocMem
  let copied := memcpyS h.hostBuffer 0 F.fwkOpKernel.size
    ⟨F.fwkOpKernel.size, fillFwkOpKernel F fwkOpKernel extInfoSize kernelId⟩
  if copied.2 = false then none
  else
    let copied := memcpyS copied.1 h.taskInfoOffset taskInfo.size taskInfo
    if copied.2 = false then none else some { h with hostBuffer := copied.1 }

def setOffsetArgs (h : ArgsHandler) : ArgsHandler :=
  let h := { h.resetHostInputInfo with hostInputInfoNum := 2 }
  let h := h.emplaceInfo (F.fwkOpKernel.off .workspaceBaseAddr) h.taskInfoOffset
  let h := h.emplaceInfo (F.fwkOpKernel.off .inputOutputAddr) h.ioAddrOffset
  if h.needDeviceExt then h
  else { h with hostInputInfoNum := h.hostInputInfoNum + 1 }.emplaceInfo
    (F.fwkOpKernel.off .extInfoAddr) h.extInfoOffset

def updateDeviceExtInfoAddr (h : ArgsHandler) (deviceExtInfoAddr : UInt64) : ArgsHandler :=
  let h := setOffsetArgs F h
  { h with hostBuffer := F.fwkOpKernel.set h.hostBuffer 0 .extInfoAddr deviceExtInfoAddr.toNat }

end AicpuTfArgsHandler

end OpBase.Aicpu
