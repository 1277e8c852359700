import OpBase.Aicpu.ArgsHandler

/-!
# The extend info after it was built

`nnopbase/aicpu/task_handler/aicpu_ext_info_handle.cpp`: the host copies the extend info
behind the arguments and walks over it once (`Parse`), to keep a pointer to the entry of each
tensor. Before a launch it writes the new shapes through these pointers, and before one on
another stream a new kernel id, for which it walks over the entries again.

`GenTfExtBuffer` builds what TensorFlow's kernels are given: the types are TensorFlow's, and
there is no session.
-/

namespace OpBase.Aicpu

open OpBase.Lib

/-! ## The types of TensorFlow -/

/-- `dataTypeMap`: the codes of `ge::DataType` and those of `types.proto`. -/
def dataTypeMap : List (Nat × Nat) :=
  [(1, 19), (0, 1), (11, 2), (2, 6), (4, 4), (6, 5), (7, 17), (3, 3), (8, 22), (9, 9), (10, 23),
    (12, 10), (23, 20), (13, 7), (24, 107), (16, 8), (17, 18), (18, 11), (21, 12), (19, 15),
    (22, 16), (20, 13), (26, 21), (27, 14), (30, 10)]

/-- `ConvertGeDataType2TfDataType` -/
def convertGeDataType2TfDataType (dataType : Nat) (isRef : Bool) : Nat :=
  match dataTypeMap.lookup dataType with
  | some tfDataType =>
    -- Avoid mishandling DT_STRING_REF
    if isRef ∧ tfDataType < 100 then tfDataType + 100 else tfDataType
  | none => 0

/-- What `IsRef` reads of an `AicpuTaskSpace`. -/
structure AicpuTaskSpace where
  inputRefIndexes : List Nat
  outputRefIndexes : List Nat

def AicpuTaskSpace.isRef (space : AicpuTaskSpace) (index : Nat) (isInput : Bool) : Bool :=
  if isInput then space.inputRefIndexes.contains index
  else space.outputRefIndexes.contains index

/-- The tensors with the types that `AppendExtInfoShape` writes for TensorFlow. -/
def tfTensors (space : AicpuTaskSpace) (isInput : Bool) (tensors : List AclTensor) :
    List AclTensor :=
  tensors.mapIdx fun index t => { t with
    dataType := UInt32.ofNat
      (convertGeDataType2TfDataType t.dataType.toNat (space.isRef index isInput)) }

/-- `GenTfExtBuffer` -/
def genTfExtBuffer (A : Adapter) (space : AicpuTaskSpace) (h : AicpuExtInfoHandler)
    (inputs outputs : List AclTensor) (taskExtInfo : Str) : Option Str := do
  -- WARNING: OP NAME MUST BE THE FIRST EXTEND INFO FOR RUNTIME!!!
  let s ← appendExtOpName A h.nodeName taskExtInfo
  let s := appendExtShapeType A h.unknownType s
  let s := appendExtBitMap A s
  let s ← appendExtInfoShape A (tfTensors space true inputs) .inputShape s
  appendExtInfoShape A (tfTensors space false outputs) .outputShape s

/-! ## The handler -/

/-- `AicpuExtInfoHandler`, with what `Parse` notes and the copies to the device. -/
structure ParsedExtInfo where
  inputNum : Nat
  outputNum : Nat
  extInfo : Nat := 0
  extInfoLen : Nat := 0
  inputShapeAndType : List Nat := []
  outputShapeAndType : List Nat := []
  outputShapeOffset : Nat := 0
  outputShapeLen : Nat := 0
  deviceExtInfo : UInt64 := 0

section Parse

variable (A : Adapter)

/-- `ParseExtInputShape` and `ParseExtOutputShape`: the pointers to the entries. -/
def parseExtShape (num infoLen infoMsg : Nat) : Option (List Nat) :=
  if infoLen ≠ num * A.shapeAndType.size then none else some (shapePtrs A infoMsg num)

/-- One round of the loop of `Parse`, with the offset behind the entry. -/
def parseEntry (h : ParsedExtInfo × Nat) (infoType infoLen aicpuExtInfo : Nat) :
    Except Unit (ParsedExtInfo × Nat) :=
  let infoMsg := aicpuExtInfo + A.extInfo.size
  let offset := (h.2 + A.extInfo.size + infoLen) % 2 ^ 64
  match A.typeOf? infoType with
  | some .inputShape =>
    match parseExtShape A h.1.inputNum infoLen infoMsg with
    | some ptrs =>
      .ok ({ h.1 with inputShapeAndType := h.1.inputShapeAndType ++ ptrs }, offset)
    | none => .error ()
  | some .outputShape =>
    match parseExtShape A h.1.outputNum infoLen infoMsg with
    | some ptrs =>
      .ok ({ h.1 with
        outputShapeAndType := h.1.outputShapeAndType ++ ptrs
        outputShapeOffset := (h.2 + A.extInfo.size) % 2 ^ 64
        outputShapeLen := infoLen }, offset)
    | none => .error ()
  | _ => .ok (h.1, offset)

/-- `Parse`: the handler, and the memory with the copy at `hostAddr`. Every entry is longer
than nothing, so that there are no more rounds than bytes. -/
def parse (h : ParsedExtInfo) (m : Mem) (extInfo : Str) (hostAddr : Nat) :
    Option (ParsedExtInfo × Mem) :=
  if extInfo.size = 0 ∨ hostAddr = 0 then none
  else
    let copied := memcpyS m hostAddr extInfo.size extInfo
    if copied.2 = false then none
    else
      let h := { h with
        extInfoLen := extInfo.size
        extInfo := hostAddr
        inputShapeAndType := []
        outputShapeAndType := [] }
      match walk A.extInfo (parseEntry A) (2 ^ 64) copied.1 h.extInfo h.extInfoLen
          (h.extInfoLen + 1) 0 (h, 0) with
      | some (.ok (h, offset)) => if offset = h.extInfoLen then some (h, copied.1) else none
      | _ => none

/-! ## New shapes -/

/-- `UpdateInputShape` and `UpdateOutputShape` -/
def updateShapeAt (num : Nat) (shapeAndType : List Nat) (m : Mem) (index : Nat)
    (shape : List Int64) : Option Mem :=
  if num ≤ index then none
  else (shapeAndType[index]?).bind fun p => A.updateShape m p shape

/-- A loop of `UpdateInputAndOutputShape`: the memory, and whether it goes on. -/
def updateShapes (num : Nat) (shapeAndType : List Nat) : Mem → Nat → List AclTensor → Mem × Bool
  | m, _, [] => (m, true)
  | m, i, t :: ts =>
    match updateShapeAt A num shapeAndType m (i % 2 ^ 32) t.originalShape with
    | some m' => updateShapes num shapeAndType m' (i + 1) ts
    | none => (m, false)

/-- What the copy to the device is given: the executor's workspace, whether the kernel is of
the type `DEPEND_SHAPE_RANGE`, and whether the runtime copies. -/
structure CopyEnv where
  workspaceDeviceAicpuMem : UInt64
  workspaceDeviceAicpuTaskOffset : UInt64
  workspaceAddr : UInt64
  deviceExtMemSize : UInt64
  dependShapeRange : Bool
  memcpyAsync : Bool

/-- `CopyH2D`, with the offset of the device cache. -/
def copyH2D (h : ParsedExtInfo) (env : CopyEnv) (deviceCacheOffset : UInt64) :
    ParsedExtInfo × UInt64 × Bool :=
  if env.dependShapeRange = false ∨ h.extInfoLen = 0 then (h, deviceCacheOffset, true)
  else if h.extInfo = 0 ∨ env.workspaceDeviceAicpuMem < env.deviceExtMemSize then
    (h, deviceCacheOffset, false)
  else
    let h := { h with deviceExtInfo := env.workspaceAddr + env.workspaceDeviceAicpuTaskOffset }
    (h, deviceCacheOffset + env.deviceExtMemSize, h.deviceExtInfo = 0 ∨ env.memcpyAsync = true)

/-- `UpdateInputAndOutputShape`: the handler, the memory, the offset of the device cache if
it is assigned, and whether it succeeds. -/
def updateInputAndOutputShape (h : ParsedExtInfo) (m : Mem) (inputs outputs : List AclTensor)
    (env : CopyEnv) : ParsedExtInfo × Mem × Option UInt64 × Bool :=
  match updateShapes A h.inputNum h.inputShapeAndType m 0 inputs with
  | (m, false) => (h, m, none, false)
  | (m, true) =>
    match updateShapes A h.outputNum h.outputShapeAndType m 0 outputs with
    | (m, false) => (h, m, none, false)
    | (m, true) =>
      let (h, deviceCacheOffset, ok) := copyH2D h env env.workspaceDeviceAicpuTaskOffset
      (h, m, some deviceCacheOffset, ok)

/-! ## A new kernel id -/

/-- One round of the loop of `UpdateKernelId`: it stops at the session, and says where that is
unless its length is wrong. -/
def findSession (_ : Unit) (infoType infoLen aicpuExtInfo : Nat) : Except (Option Nat) Unit :=
  match A.typeOf? infoType with
  | some .sessionInfo =>
    .error (if infoLen = A.sessionInfo.size then some (aicpuExtInfo + A.extInfo.size) else none)
  | _ => .ok ()

/-- `UpdateKernelId`: the memory, the counter of the kernel ids, and whether it succeeds. -/
def updateKernelId (h : ParsedExtInfo) (m : Mem) (gKernelId : UInt64) : Mem × UInt64 × Bool :=
  match walk A.extInfo (findSession A) (2 ^ 64) m h.extInfo h.extInfoLen (h.extInfoLen + 1) 0
      () with
  | some (.error (some sessionInfo)) =>
    let (kernelId, gKernelId) := generateKernelId gKernelId
    (A.sessionInfo.set m sessionInfo .kernelId kernelId.toNat, gKernelId, true)
  | some (.ok ()) => (m, gKernelId, true)
  | _ => (m, gKernelId, false)

end Parse

end OpBase.Aicpu
