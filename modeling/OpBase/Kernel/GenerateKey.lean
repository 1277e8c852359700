import OpBase.Cache.KeyBuffer

/-!
# The key of a kernel at run time

`op_kernel.h`, `kernel_arg.h` and `kernel_arg.cpp` of the composite ops: the binaries of an op are
found by a key. `GenerateKey` makes it from the arguments of a call: the deterministic setting and
the implementation mode, one byte each for type and format of every tensor and more where
the tables of the op ask for it, and the attributes the binaries differ in. What the tables say
was collected when the binaries were registered.

A key is written into a buffer. The model keeps the bytes from its start to the write pointer,
and how far the buffer was written to, which a `memcpy_s` that fails may have done behind the
pointer.
-/

namespace OpBase.Kernel

open OpBase.Lib
open OpBase.Cache.Key (securecMemMaxLen)

/-- `std::string` -/
abbrev Str := List Byte

/-- The bytes of an ASCII literal. -/
def ascii (s : String) : Str := s.toList.map fun c => UInt8.ofNat c.toNat

/-! ## The tables -/

/-- `ge::Format`, by the enumerator's code. -/
abbrev Format := UInt32

/-- What keys depend on: the enumerators of `ge::Format` that are used, the id of `TransData`
among the op types, `static_cast<float>` of a `double`, the bytes that lie behind an object on
the stack, `std::hash<uint64_t>`, and what `sscanf_s` finds by `"d=%u,p=%u/"`. -/
structure Env where
  ND : Format
  NCHW : Format
  NHWC : Format
  HWCN : Format
  NDHWC : Format
  NCDHW : Format
  DHWCN : Format
  NDC1HWC0 : Format
  FRACTAL_NZ : Format
  NC1HWC0 : Format
  FRACTAL_Z : Format
  C1HWNCoC0 : Format
  FRACTAL_Z_C04 : Format
  FRACTAL_Z_3D : Format
  FRACTAL_NZ_C0_16 : Format
  FRACTAL_NZ_C0_32 : Format
  FRACTAL_NZ_C0_2 : Format
  FRACTAL_NZ_C0_4 : Format
  FRACTAL_NZ_C0_8 : Format
  END : Format
  transDataId : UInt32
  toFloat : UInt64 → UInt32
  behind : Nat → Byte
  hasher : UInt64 → UInt64
  scanKey : Str → Option (UInt32 × UInt32)

inductive FormatType where
  | NOT_SUPPORT_ND | SUPPORT_ND | ONLY_SUPPORT_ND | BOTTOM
deriving DecidableEq

/-- `FormatInfo`; each format is in the list once. -/
structure FormatInfo where
  supportFormats : List Format
  fmtType : FormatType
deriving DecidableEq

inductive DtMatchMode where
  | NORMAL | DTYPE_BYTE | BOTTOM
deriving DecidableEq

inductive TensorType where
  | REQUIRED | OPTIONAL | DYNAMIC | DYNAMIC_FOLDED | BOTTOM
deriving DecidableEq

inductive ShapeSupportType where
  | SUPPORT_ALL | NOT_SUPPORT_ALL | DEFAULT
deriving DecidableEq

/-- `TensorInfo` -/
structure TensorInfo where
  fmtInfo : FormatInfo
  dtMatchMode : DtMatchMode
  tensorType : TensorType
  opType : UInt32
  shapeSupportType : ShapeSupportType
  shapeDimension : Nat
deriving DecidableEq

/-- `AttrInfo`; `realSize` is the number of `values`. -/
structure AttrInfo where
  attrName : Str
  supportAll : Bool
  values : Option (List Byte)
deriving DecidableEq

/-- `realSize` -/
def AttrInfo.realSize (info : AttrInfo) : Nat := (info.values.getD []).length

/-- `MAX_TENSOR_SIZE` -/
def maxTensorSize : Nat := 32

/-- `MAX_VALID_DTYPE_SIZE` -/
def maxValidDtypeSize : Nat := 16

/-- `FRACTAL_Z_SIZE` -/
def fractalZSize : Nat := 4

/-- `OpImplMode`, by its bits. -/
abbrev OpImplMode := UInt32

namespace OpImplMode

def IMPL_MODE_DEFAULT : OpImplMode := 0x1
def IMPL_MODE_HIGH_PERFORMANCE : OpImplMode := 0x2
def IMPL_MODE_HIGH_PRECISION : OpImplMode := 0x4
def IMPL_MODE_SUPER_PERFORMANCE : OpImplMode := 0x8
def IMPL_MODE_SUPPORT_OUT_OF_BOUND_INDEX : OpImplMode := 0x10
def IMPL_MODE_ENABLE_FLOAT32_EXECUTION : OpImplMode := 0x20
def IMPL_MODE_ENABLE_HI_FLOAT32_EXECUTION : OpImplMode := 0x40
def IMPL_MODE_KEEP_FP16 : OpImplMode := 0x80
def IMPL_MODE_RESERVED : OpImplMode := 0xFFFFFFFF

end OpImplMode

/-- `ffs`: one more than the index of the lowest bit that is set, zero if there is none. -/
def ffs (x : UInt32) : Nat :=
  match (List.range 32).find? fun i => x.toNat.testBit i with
  | some i => i + 1
  | none => 0

/-- `ToIndexChar`, as a `char`. -/
def toIndexChar (implMode : OpImplMode) : Byte := UInt8.ofNat (47 + ffs implMode)

/-- `OpKernelBin`, as far as it is found and told apart. -/
structure OpKernelBin where
  key : Str
  deterministicFlag : Bool
  implMode : Str
  jsonPath : Str
  relativeJsonPath : Str
  binPath : Str
  hashKey : UInt64
  genPlaceholder : Bool
  hasDevPtrArg : Bool
deriving DecidableEq

/-- `OpKernel`. The arrays of infos have `maxTensorSize` entries; what a table says behind them
is what lies in memory there. -/
structure OpKernel where
  opType : UInt32
  opTypeStr : Str
  opsRepoName : Str
  inputInfos : Nat → TensorInfo
  outputInfos : Nat → TensorInfo
  attrInfos : List AttrInfo
  inputNum : Nat
  outputNum : Nat
  maxAttrLen : Nat
  implModeBm : UInt32
  maxKeyLength : Nat
  determinConfig : Int
  genPlaceholder : Bool
  customizedSimplifiedKeyMode : Bool
  ingnoreAttrSimplifiedKeyMode : Bool
  bins : UInt64 → Option OpKernelBin
  staticBins : UInt64 → Option OpKernelBin

/-! ## Bytes of a key -/

/-- `char` of `MAX_VALID_DTYPE_FORMAT_KEY + x`. -/
def Env.keyChar (env : Env) (x : Int) : Byte := UInt8.ofNat ((env.END.toNat + x) % 256).toNat

/-- The byte for a data type. -/
def dtypeChar (mode : DtMatchMode) (dataType : DataType) : Byte :=
  if mode = .DTYPE_BYTE then
    if typeSize dataType ≤ maxValidDtypeSize then UInt8.ofNat (typeSize dataType)
    else UInt8.ofNat (typeSize dataType - kDataTypeSizeBitOffset + maxValidDtypeSize)
  else dataType.code.toUInt8

/-- `n` bytes from the start of an object, and on behind it. -/
def Env.objectBytes (env : Env) (object : List Byte) (n : Nat) : List Byte :=
  (List.range n).map fun i => object.getD i (env.behind i)

def slash : Byte := 47
def leftBracket : Byte := 91
def rightBracket : Byte := 93

/-- What is read of an `aclnnStatus`. -/
inductive Status where
  | success
  | error
deriving DecidableEq

/-- The bytes up to the write pointer, and the end of what was written. -/
structure KeyBuf where
  bytes : Str
  reach : Nat
deriving DecidableEq

namespace KeyBuf

/-- `AssignAndIncrement` of a `char`. -/
def put (b : KeyBuf) (c : Byte) : KeyBuf :=
  ⟨b.bytes ++ [c], max b.reach (b.bytes.length + 1)⟩

/-- `AssignAndIncrement` of bytes. A `memcpy_s` that is given too many clears the `maxSize`
bytes it may write; a `maxSize` that is itself refused leaves them. -/
def putAll (b : KeyBuf) (maxSize : Nat) (arg : List Byte) : Status × KeyBuf :=
  if maxSize = 0 ∨ securecMemMaxLen < maxSize then (.error, b)
  else if maxSize < arg.length then
    (.error, ⟨b.bytes, max b.reach (b.bytes.length + maxSize)⟩)
  else (.success, ⟨b.bytes ++ arg, max b.reach (b.bytes.length + arg.length)⟩)

end KeyBuf

/-! ## Arguments -/

/-- What is read of an `aclTensor`. -/
structure Tensor where
  dataType : DataType
  storageFormat : UInt32
  storageShape : List Int
deriving DecidableEq

/-- `GetPrimaryFormat` of GE. -/
def Tensor.primaryFormat (t : Tensor) : Format := t.storageFormat &&& 0xff

/-- `OpArg`. The pointers of strings, scalars and arrays are not null, they are read without
a test; a string is what is in front of its terminating zero. `int` stands for `OPARG_INT`,
`OPARG_UINT` and `OPARG_IMPLMODE`; `other` has the types that are in no list below. -/
inductive OpArg where
  | aclTensor (tensor : Option Tensor)
  | aclTensorList (tensorList : Option (List (Option Tensor)))
  | dataType (value : DataType)
  | bool (value : Bool)
  | int (ivalue : UInt64)
  | float (fvalue : UInt32)
  | double (dvalue : UInt64)
  | string (value : Str)
  | aclScalar (data : List Byte)
  | intList (size : Nat)
  | floatList (size : Nat)
  | boolList (size : Nat)
  | other
deriving DecidableEq

/-- What a key is made for: the arguments, the launcher's implementation mode, the string that
`gen_simplifiedkey` of the op writes and whether it succeeds, if the op has one, and the key
among the static binaries. -/
structure Call where
  inputs : List OpArg
  outputs : List OpArg
  attrs : List OpArg
  implMode : OpImplMode
  genSimplifiedKey : Option (Status × Str)
  staticKey : Option Str

/-- `VisitBy`: the first error ends it. -/
def visitBy {σ : Type} (func : Nat → OpArg → σ → Status × σ) : Nat → List OpArg → σ → Status × σ
  | _, [], s => (.success, s)
  | idx, arg :: args, s =>
    match func idx arg s with
    | (.success, s) => visitBy func (idx + 1) args s
    | (.error, s) => (.error, s)

variable (env : Env)

/-- The format in a key, if the op supports it. -/
def formatChar (info : TensorInfo) (t : Tensor) : Option Byte :=
  if info.fmtInfo.fmtType = .ONLY_SUPPORT_ND then some env.ND.toUInt8
  else if t.primaryFormat ∈ info.fmtInfo.supportFormats then some t.primaryFormat.toUInt8
  else if info.fmtInfo.fmtType = .SUPPORT_ND then some env.ND.toUInt8
  else none

/-- `GenTransDataKey` -/
def genTransDataKey (info : TensorInfo) (t : Tensor) (key : KeyBuf) : KeyBuf :=
  if info.opType = env.transDataId ∧ t.primaryFormat = env.FRACTAL_Z ∧
      t.storageShape.length = fractalZSize then
    key.put (env.keyChar (t.storageShape.getD (fractalZSize - 1) 0))
  else key

/-- `GenDimension` -/
def genDimension (info : TensorInfo) (t : Tensor) (key : KeyBuf) : KeyBuf :=
  if info.shapeSupportType = .NOT_SUPPORT_ALL then key.put (env.keyChar t.storageShape.length)
  else key

/-- `GenKeyByArgImpl` of a tensor. -/
def genKeyByTensor (tensorInfos : Nat → TensorInfo) (ignoreOptional : Bool) (idx : Nat) :
    Option Tensor → KeyBuf → Status × KeyBuf
  | none, key => (.success, key)
  | some t, key =>
    if maxTensorSize ≤ idx then (.error, key)
    else if ignoreOptional ∧ (tensorInfos idx).tensorType = .OPTIONAL then (.success, key)
    else
      let key := key.put (dtypeChar (tensorInfos idx).dtMatchMode t.dataType)
      match formatChar env (tensorInfos idx) t with
      | none => (.error, key)
      | some c =>
        let key := genTransDataKey env (tensorInfos idx) t (key.put c)
        (.success, genDimension env (tensorInfos idx) t key)

/-- `GenKeyByArgImpl` of a list. -/
def genKeyByTensorList (tensorInfos : Nat → TensorInfo) (ignoreOptional : Bool) (idx : Nat)
    (tensorList : Option (List (Option Tensor))) (key : KeyBuf) : Status × KeyBuf :=
  if ignoreOptional ∧ idx < maxTensorSize ∧ (tensorInfos idx).tensorType = .OPTIONAL then
    (.success, key)
  else
    match tensorList with
    | none | some [] => (.error, key)
    | some (t :: ts) =>
      match genKeyByTensor env tensorInfos ignoreOptional idx t key with
      | (.error, key) => (.error, key)
      | (.success, key) =>
        let tensorListSize :=
          if (tensorInfos idx).tensorType = .DYNAMIC_FOLDED then 1 else (t :: ts).length
        (.success, key.put (env.keyChar tensorListSize))

/-- `GenKeyByArgImpl` -/
def genKeyByArg (tensorInfos : Nat → TensorInfo) (ignoreOptional : Bool) (idx : Nat) :
    OpArg → KeyBuf → Status × KeyBuf
  | .aclTensor tensor, key => genKeyByTensor env tensorInfos ignoreOptional idx tensor key
  | .aclTensorList tensorList, key =>
    genKeyByTensorList env tensorInfos ignoreOptional idx tensorList key
  | _, key => (.success, key)

/-! ## Attributes -/

/-- `static_cast<size_t>(std::min(32, (int32_t) strlen(value)))` -/
def stringLen (len : Nat) : Nat := (min 32 (asInt32 len) % 2 ^ 64).toNat

/-- The value of an attribute: a few characters, or bytes to copy. -/
inductive AttrKey where
  | chars (cs : List Byte)
  | copied (bytes : List Byte)
  | unsupported

/-- What an array has in a key. -/
def arrayKey (size : Nat) : List Byte := [leftBracket, UInt8.ofNat size, rightBracket]

/-- `GenKeyByOneAttrImpl`. What `memcpy_s` is given of a string when its length has wrapped is
more than it takes, whatever the bytes are. -/
def OpArg.attrKey (realSize : Nat) : OpArg → AttrKey
  | dataType value => .chars [value.code.toUInt8]
  | bool value => .chars [if value then 1 else 0]
  | int ivalue => .copied (env.objectBytes (le8 ivalue) realSize)
  | float fvalue => .copied (env.objectBytes (le 4 fvalue.toNat) realSize)
  | double dvalue => .copied (env.objectBytes (le 4 (env.toFloat dvalue).toNat) realSize)
  | string value => .copied (env.objectBytes value (stringLen value.length))
  | aclScalar data => .copied data
  | intList size => .chars (arrayKey size)
  | floatList size => .chars (arrayKey size)
  | _ => .unsupported

/-- `GenKeyByOneAttrImplWrapper`; `remainLen` is the same for every attribute. -/
def genKeyByAttr (attrInfos : List AttrInfo) (remainLen idx : Nat) (arg : OpArg) (key : KeyBuf) :
    Status × KeyBuf :=
  match attrInfos[idx]? with
  | none => (.success, key)
  | some info =>
    if info.supportAll then (.success, key)
    else
      let key := key.put slash
      match arg.attrKey env info.realSize with
      | .chars cs => (.success, cs.foldl KeyBuf.put key)
      | .copied bytes => key.putAll remainLen bytes
      | .unsupported => (.error, key)

/-! ## The key -/

namespace OpKernel

/-- `IsSupportImplMode` -/
def isSupportImplMode (k : OpKernel) (implMode : OpImplMode) : Bool :=
  k.implModeBm &&& implMode ≠ 0

/-- `GetCurrentImplMode` -/
def getCurrentImplMode (k : OpKernel) (mode : OpImplMode) : OpImplMode :=
  if mode ≠ OpImplMode.IMPL_MODE_DEFAULT ∧ k.isSupportImplMode mode then mode
  else if k.isSupportImplMode OpImplMode.IMPL_MODE_HIGH_PRECISION then
    OpImplMode.IMPL_MODE_HIGH_PRECISION
  else OpImplMode.IMPL_MODE_HIGH_PERFORMANCE

/-- `DETERMINISTIC_VALUE` or `NON_DETERMINISTIC_VALUE` -/
def determinChar (k : OpKernel) : Byte := if k.determinConfig = 1 then 49 else 48

/-- The context of a key. -/
def contextKey (k : OpKernel) (mode : OpImplMode) : KeyBuf :=
  [k.determinChar, slash, toIndexChar (k.getCurrentImplMode mode), slash].foldl KeyBuf.put ⟨[], 0⟩

/-- `GenerateKeyCustomizedSimplifiedKey`. The two prefixes are always copied: the buffer has
room for them, or the copy fails and goes unnoticed. -/
def generateKeyCustomizedSimplifiedKey (k : OpKernel) (call : Call) : Status × KeyBuf :=
  let key := (KeyBuf.putAll ⟨[], 0⟩ k.maxKeyLength (ascii "d=")).2
  let key := key.put k.determinChar
  let key := (key.putAll (k.maxKeyLength - 5) (ascii ",p=")).2
  let key := (key.put (toIndexChar (k.getCurrentImplMode call.implMode))).put slash
  let key : KeyBuf := { key with reach := max key.reach (key.bytes.length + 1) }
  match call.genSimplifiedKey with
  | none => (.error, key)
  | some (status, s) =>
    let reach := max key.reach (key.bytes.length + s.length + 1)
    match status with
    | .error => (.error, { key with reach })
    | .success => (.success, ⟨key.bytes ++ s, reach⟩)

/-- `GenerateKey`. That an output has no key is not an error if attributes follow. -/
def generateKey (k : OpKernel) (call : Call) : Status × KeyBuf :=
  if k.customizedSimplifiedKeyMode then generateKeyCustomizedSimplifiedKey k call
  else
    match visitBy (genKeyByArg env k.inputInfos k.genPlaceholder) 0 call.inputs
      (k.contextKey call.implMode) with
    | (.error, key) => (.error, key)
    | (.success, key) =>
      let (ret, key) := visitBy (genKeyByArg env k.outputInfos k.genPlaceholder) 0 call.outputs key
      if k.maxKeyLength ≤ key.bytes.length then (.error, key)
      else if k.attrInfos = [] ∨ k.ingnoreAttrSimplifiedKeyMode then (ret, key)
      else
        visitBy (genKeyByAttr env k.attrInfos (k.maxKeyLength - key.bytes.length)) 0 call.attrs key

end OpKernel

end OpBase.Kernel
