import OpBase.Base.DataType
import OpBase.Lib.Bytes

/-!
# The key of a cached call

`op_cache.h` and `op_cache.cpp`: `GetFromCache` writes the name of the API, the
core numbers and every parameter of a call into a thread-local buffer of 8192
bytes, `SetOpCacheKey` puts a label for each tensor behind them, and the bytes are
the key under which the call's execution is cached.

Each kind of parameter has its own overload of `AddParamToBuf` and its own
framing. Null pointers are a comma; tensors are fields with commas between them;
arrays and lists have their length at the end; scalars and strings are bare bytes.
A `const aclBf16Array *` has no overload and goes to the template that copies the
value it is given: the pointer.

Every write checks the room first, and the offset that marks a full buffer lies so
far behind it that every later check fails too: a full buffer is `none` here.
-/

namespace OpBase.Cache.Key

open OpBase.Lib

/-! ## Parameters -/

/-- `ge::Format`: primary format, sub-format and the four bits of C0, or
`ACL_FORMAT_UNDEFINED`. -/
@[ext]
structure Format where
  code : UInt32
  valid : code.toNat < 2 ^ 28 ∨ code = 0xffffffff
deriving DecidableEq

/-- What the key is to tell about an `aclTensor`. -/
@[ext]
structure TensorInfo where
  viewShape : List Int64
  viewStrides : List Int64
  storageShape : List Int64
  dataType : DataType
  viewOffset : Int64
  viewFormat : Format
deriving DecidableEq

/-- An `aclTensor` and its address. -/
structure Tensor extends TensorInfo where
  object : Nat
deriving DecidableEq

/-- An `aclScalar`: the `Size()` bytes behind `GetData()`. -/
@[ext]
structure Scalar where
  dataType : DataType
  data : List Byte
  size : data.length = typeSize dataType
deriving DecidableEq

/-- A parameter, over what stands for a tensor and for an `aclBf16Array *`. Floating-point
elements are their bits; a plain value is its object representation. -/
inductive Param (τ β : Type) where
  | tensor (tensor : Option τ)
  | tensorList (tensors : Option (List (Option τ)))
  | intArray (value : Option (List Int64))
  | boolArray (value : Option (List Bool))
  | floatArray (value : Option (List UInt32))
  | fp16Array (value : Option (List UInt16))
  | bf16Array (value : β)
  | scalar (scalar : Option Scalar)
  | scalarList (scalars : Option (List (Option Scalar)))
  | string (s : List Byte)
  | charPtr (c : Option (List Byte))
  | dataType (dtype : DataType)
  | plain (value : List Byte)
deriving DecidableEq

/-- The C++ type of a parameter. -/
inductive ParamType where
  | tensor
  | tensorList
  | intArray
  | boolArray
  | floatArray
  | fp16Array
  | bf16Array
  | scalar
  | scalarList
  | string
  | charPtr
  | dataType
  | plain (size : Nat)
deriving DecidableEq

def Param.type {τ β : Type} : Param τ β → ParamType
  | .tensor _ => .tensor
  | .tensorList _ => .tensorList
  | .intArray _ => .intArray
  | .boolArray _ => .boolArray
  | .floatArray _ => .floatArray
  | .fp16Array _ => .fp16Array
  | .bf16Array _ => .bf16Array
  | .scalar _ => .scalar
  | .scalarList _ => .scalarList
  | .string _ => .string
  | .charPtr _ => .charPtr
  | .dataType _ => .dataType
  | .plain value => .plain value.length

/-- A call as `GetFromCache` sees it. -/
structure Call where
  api : List Byte
  aicNum : UInt32
  aivNum : UInt32
  inputs : List (Param Tensor UInt64)
  outputs : List (Param Tensor UInt64)

/-! ## The buffer -/

/-- `K_HASH_BUF_SIZE`. -/
def hashBufSize : Nat := 8192

/-- The separator, a comma. -/
def separator : Byte := 44

/-- `OpCacheThreadLocalData`: the bytes up to `hashOffset` and the labels of the tensors. -/
structure TlsData where
  hashBuf : List Byte
  tensorLabelMap : List (Nat × Nat)
  tensorLabelNum : Nat
  tensorLabelList : List Nat

namespace TlsData

/-- `InitExecutorCacheThreadLocal`. -/
def init : TlsData := ⟨[], [], 0, []⟩

def write (bytes : List Byte) (tls : TlsData) : TlsData :=
  { tls with hashBuf := tls.hashBuf ++ bytes }

def checkHashBufCapacity (addSize : Nat) (tls : TlsData) : Option TlsData :=
  if tls.hashBuf.length + addSize > hashBufSize then none else some tls

def opCacheAddSeperator (tls : TlsData) : TlsData := tls.write [separator]

def opCacheAdd4Byte (x : UInt32) (tls : TlsData) : TlsData := tls.write (le 4 x.toNat)

def opCacheAdd8Byte (tls : TlsData) (x : UInt64) : TlsData := tls.write (le8 x)

def addSeperator (tls : TlsData) : Option TlsData :=
  (tls.checkHashBufCapacity 1).map opCacheAddSeperator

/-- `AddAclTensorToCachedList`, for the labels. -/
def addAclTensorToCachedList (object : Nat) (tls : TlsData) : TlsData :=
  match tls.tensorLabelMap.lookup object with
  | none =>
    { tls with
      tensorLabelNum := tls.tensorLabelNum + 1
      tensorLabelMap := (object, tls.tensorLabelNum) :: tls.tensorLabelMap
      tensorLabelList := tls.tensorLabelList ++ [tls.tensorLabelNum] }
  | some label => { tls with tensorLabelList := tls.tensorLabelList ++ [label] }

/-- `OpCahceAddShapeInfo`; strides are written the same way. -/
def opCahceAddShapeInfo (shape : List Int64) (tls : TlsData) : Option TlsData :=
  (tls.checkHashBufCapacity (8 * shape.length + 1)).map fun tls =>
    (shape.foldl (fun tls d => tls.opCacheAdd8Byte d.toUInt64) tls).opCacheAddSeperator

/-- `AddParamToBuf(const aclTensor *)`. -/
def addTensor (tls : TlsData) : Option Tensor → Option TlsData
  | none => tls.addSeperator
  | some tensor => do
    let tls ← (tls.addAclTensorToCachedList tensor.object).opCahceAddShapeInfo tensor.viewShape
    let tls ← tls.opCahceAddShapeInfo tensor.viewStrides
    let tls ← tls.opCahceAddShapeInfo tensor.storageShape
    (tls.checkHashBufCapacity (4 + 1 + 8 + 1 + 4)).map fun tls =>
      let tls := (tls.opCacheAdd4Byte tensor.dataType.code).opCacheAddSeperator
      let tls := (tls.opCacheAdd8Byte tensor.viewOffset.toUInt64).opCacheAddSeperator
      tls.opCacheAdd4Byte tensor.viewFormat.code

/-- `AddParamToBuf(const aclScalar *)`. -/
def addScalar (tls : TlsData) : Option Scalar → Option TlsData
  | none => tls.addSeperator
  | some scalar =>
    (tls.checkHashBufCapacity (typeSize scalar.dataType + 1)).map fun tls =>
      (tls.write scalar.data).opCacheAddSeperator

def opCacheAddCounter (counter : Nat) (tls : TlsData) : Option TlsData :=
  (tls.checkHashBufCapacity 8).map fun tls => tls.opCacheAdd8Byte (UInt64.ofNat counter)

variable {α : Type}

/-- `OpCacheAddArray` for elements of `size` bytes. -/
def opCacheAddArray (size : Nat) (bytes : α → List Byte) (elements : List α) (tls : TlsData) :
    Option TlsData :=
  (tls.checkHashBufCapacity (elements.length * size + 8)).map fun tls =>
    (tls.write (elements.flatMap bytes)).opCacheAdd8Byte (UInt64.ofNat elements.length)

/-- `AddParamToBufV2`, and the template that copies a value. -/
def addParamToBufV2 (bytes : List Byte) (tls : TlsData) : Option TlsData :=
  (tls.checkHashBufCapacity bytes.length).map fun tls => tls.write bytes

/-- The four `AddParamToBuf(const acl…Array *)` with an overload. -/
def addArray (size : Nat) (bytes : α → List Byte) (tls : TlsData) :
    Option (List α) → Option TlsData
  | none => tls.addSeperator
  | some elements => tls.opCacheAddArray size bytes elements

/-- `AddParamToBuf(const acl…List *)`: the members, then their number. -/
def addList (addMember : TlsData → α → Option TlsData) (tls : TlsData) :
    Option (List α) → Option TlsData
  | none => tls.addSeperator
  | some members => (members.foldlM addMember tls).bind (opCacheAddCounter members.length)

/-- `AddParamToBuf(const char *)`. -/
def addCharPtr (tls : TlsData) : Option (List Byte) → Option TlsData
  | none => tls.addSeperator
  | some c => (tls.addParamToBufV2 c).bind (opCacheAddCounter c.length)

/-- The object representation of a `bool`. -/
def boolBytes (b : Bool) : List Byte := [if b then 1 else 0]

/-- `AddParamToBuf`, by overload. -/
def addParamToBuf (tls : TlsData) : Param Tensor UInt64 → Option TlsData
  | .tensor tensor => tls.addTensor tensor
  | .tensorList tensors => tls.addList addTensor tensors
  | .intArray value => tls.addArray 8 (fun d : Int64 => le8 d.toUInt64) value
  | .boolArray value => tls.addArray 1 boolBytes value
  | .floatArray value => tls.addArray 4 (fun x : UInt32 => le 4 x.toNat) value
  | .fp16Array value => tls.addArray 2 (fun x : UInt16 => le 2 x.toNat) value
  | .bf16Array value => tls.addParamToBufV2 (le8 value)
  | .scalar scalar => tls.addScalar scalar
  | .scalarList scalars => tls.addList addScalar scalars
  | .string s => tls.addParamToBufV2 s
  | .charPtr c => tls.addCharPtr c
  | .dataType dtype => tls.addParamToBufV2 (le 4 dtype.code.toNat)
  | .plain value => tls.addParamToBufV2 value

/-- `AddOpConfigInfoToBuf`. -/
def addOpConfigInfoToBuf (aicNum aivNum : UInt32) (tls : TlsData) : Option TlsData :=
  (tls.checkHashBufCapacity 8).map fun tls =>
    (tls.opCacheAdd4Byte aicNum).opCacheAdd4Byte aivNum

/-- `SetOpCacheKey`: the labels, then the key; no key for a full buffer. -/
def setOpCacheKey (tls : TlsData) : Option (List Byte) :=
  (tls.checkHashBufCapacity (8 * tls.tensorLabelList.length)).map fun tls =>
    (tls.tensorLabelList.foldl (fun tls label => tls.opCacheAdd8Byte (UInt64.ofNat label))
      tls).hashBuf

end TlsData

/-- The key of a call, if its bytes stay inside the buffer. -/
def Call.key (call : Call) : Option (List Byte) := do
  let tls ← TlsData.init.addCharPtr (some call.api)
  let tls ← tls.addOpConfigInfoToBuf call.aicNum call.aivNum
  let tls ← call.inputs.foldlM TlsData.addParamToBuf tls
  let tls ← call.outputs.foldlM TlsData.addParamToBuf tls
  tls.setOpCacheKey

/-! ## What a call passes -/

def Call.params (call : Call) : List (Param Tensor UInt64) := call.inputs ++ call.outputs

/-- The parameter type list of the API. -/
def Call.types (call : Call) : List ParamType := call.params.map Param.type

def Param.map {τ β τ' β' : Type} (f : τ → τ') (g : β → β') : Param τ β → Param τ' β'
  | .tensor t => .tensor (t.map f)
  | .tensorList ts => .tensorList (ts.map (·.map (·.map f)))
  | .intArray v => .intArray v
  | .boolArray v => .boolArray v
  | .floatArray v => .floatArray v
  | .fp16Array v => .fp16Array v
  | .bf16Array v => .bf16Array (g v)
  | .scalar s => .scalar s
  | .scalarList ss => .scalarList ss
  | .string s => .string s
  | .charPtr c => .charPtr c
  | .dataType dtype => .dataType dtype
  | .plain v => .plain v

/-- A parameter without the identity of its tensors. -/
def Param.info : Param Tensor UInt64 → Param TensorInfo UInt64 := Param.map Tensor.toTensorInfo id

/-- The array an `aclBf16Array *` points to; `heap` holds the arrays by address. -/
def deref (heap : UInt64 → List UInt16) (v : UInt64) : Option (List UInt16) :=
  if v = 0 then none else some (heap v)

/-- The value of a parameter: for an `aclBf16Array *` the array, if it is not null. -/
def Param.value (heap : UInt64 → List UInt16) : Param Tensor UInt64 →
    Param TensorInfo (Option (List UInt16)) :=
  Param.map Tensor.toTensorInfo (deref heap)

/-- The tensors a parameter passes, in order. -/
def Param.tensors {τ β : Type} : Param τ β → List τ
  | .tensor t => t.toList
  | .tensorList ts => (ts.getD []).filterMap id
  | _ => []

/-- The addresses of the tensors a call passes, in order. -/
def Call.objects (call : Call) : List Nat :=
  call.params.flatMap fun p => p.tensors.map Tensor.object

end OpBase.Cache.Key
