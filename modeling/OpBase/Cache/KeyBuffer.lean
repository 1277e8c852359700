import OpBase.Cache.Key
import OpBase.Lib.Memory

/-!
# The key buffer in memory

`op_cache.h` and `op_cache.cpp` again, this time with the buffer as memory:
`g_hashBuf` has 8192 bytes, `g_hashOffset` is a `uint64_t`, and a full buffer is an
offset of 9216.

Every routine checks the room for all it is about to write, and a store does not
look again. `memcpy_s` is the secure C library's: how it treats a refused copy is
known (`MemcpyS`), and its result is only logged, so the offset moves on in any case.

The sums in the checks are taken in `uint64_t`. For the bytes of an object they do
not wrap (`Param.Fits`); the template with an address takes a number of elements
from its caller, and there they may.
-/

namespace OpBase.Cache.Key

open OpBase.Lib

/-! ## The secure C library -/

/-- `SECUREC_MEM_MAX_LEN`. -/
def securecMemMaxLen : Nat := 0x7fffffff

/-- `memcpy_s`: the bytes it leaves from the destination on, for `destMax`, the object behind
the source (`none` is null) and `count`. A refused copy may clear the destination, unless
`destMax` itself is refused. -/
structure MemcpyS where
  written : Nat → Option (List Byte) → Nat → List Byte
  bounded : ∀ destMax src count, (written destMax src count).length ≤ destMax
  refused : ∀ destMax src count, securecMemMaxLen < destMax → written destMax src count = []
  copied : ∀ destMax src, src ≠ [] → src.length ≤ destMax → destMax ≤ securecMemMaxLen →
    written destMax (some src) src.length = src

/-- The library's own function. -/
def MemcpyS.securec : MemcpyS where
  written destMax src count :=
    if securecMemMaxLen < destMax then []
    else
      match src with
      | none => List.replicate destMax 0
      | some src => if destMax < count then List.replicate destMax 0 else src.take count
  bounded destMax src count := by
    split
    next => exact Nat.zero_le _
    next =>
      cases src with
      | none => exact Nat.le_of_eq List.length_replicate
      | some src =>
        show (if destMax < count then _ else _ : List Byte).length ≤ destMax
        split
        next => exact Nat.le_of_eq List.length_replicate
        next hcount => exact Nat.le_trans (List.length_take_le _ _) (Nat.le_of_not_lt hcount)
  refused destMax src count h := if_pos h
  copied destMax src _ hlen hmax := by
    rw [if_neg (Nat.not_lt.mpr hmax)]
    show (if destMax < src.length then _ else _ : List Byte) = src
    rw [if_neg (Nat.not_lt.mpr hlen), List.take_length]

/-! ## The thread-local data -/

/-- `K_INVALID_HASH_OFFSET`. -/
def kInvalidHashOffset : Nat := hashBufSize + 1024

/-- The most elements of a `std::vector<int64_t>`. -/
def maxLabels : Nat := 2 ^ 60 - 1

/-- What ends a routine early: a byte behind the key buffer, or the `std::length_error` of a
vector. -/
inductive Fault where
  | overrun
  | lengthError
deriving DecidableEq

/-- What a key points to: the key buffer or the bytes that `SetPTACacheHashKey` was given. -/
inductive KeyPtr where
  | hashBuf
  | pta (address : UInt64)
deriving DecidableEq

/-- `OpCacheKey`; null is `none`. -/
structure OpCacheKey where
  buf : Option KeyPtr
  len : Nat
deriving DecidableEq

/-- `OpCacheKey()`. -/
def OpCacheKey.empty : OpCacheKey := ⟨none, 0⟩

/-- What the key has to do with in `OpThreadLocalContext`. -/
structure Context where
  cacheHashKey : OpCacheKey
  usePTAHash : Bool
deriving DecidableEq

/-- `OpCacheThreadLocalData`, with the buffer and the offset it refers to. -/
structure ThreadLocal where
  hashBuf : Mem
  hashOffset : Nat
  tensorLabelMap : List (Nat × Nat)
  tensorLabelNum : Nat
  tensorLabelList : List Nat
  context : Context

namespace ThreadLocal

def clear (tls : ThreadLocal) : ThreadLocal :=
  { tls with hashOffset := 0, tensorLabelMap := [], tensorLabelNum := 0, tensorLabelList := [] }

def resetCacheThreadLocal (tls : ThreadLocal) : ThreadLocal :=
  { tls.clear with context := ⟨.empty, false⟩ }

def initPTACacheThreadLocal (tls : ThreadLocal) : ThreadLocal :=
  { tls.clear with context := ⟨.empty, true⟩ }

def setPTACacheHashKey (key : OpCacheKey) (tls : ThreadLocal) : ThreadLocal :=
  { tls with context := { tls.context with cacheHashKey := key } }

def initExecutorCacheThreadLocal (tls : ThreadLocal) : ThreadLocal :=
  if tls.context.usePTAHash then tls.clear else { tls.clear with context := ⟨.empty, false⟩ }

/-! ## Writing -/

/-- Bytes are left at the offset. -/
def put (bytes : List Byte) (tls : ThreadLocal) : Except Fault ThreadLocal :=
  if bytes ≠ [] ∧ hashBufSize < tls.hashOffset + bytes.length then .error .overrun
  else .ok { tls with hashBuf := tls.hashBuf.place tls.hashOffset (Str.ofList bytes) }

def advance (n : Nat) (tls : ThreadLocal) : ThreadLocal :=
  { tls with hashOffset := (tls.hashOffset + n) % 2 ^ 64 }

/-- An assignment through a pointer into the buffer. -/
def store (bytes : List Byte) (tls : ThreadLocal) : Except Fault ThreadLocal := do
  let tls ← tls.put bytes
  return tls.advance bytes.length

def opCacheAddSeperator (tls : ThreadLocal) : Except Fault ThreadLocal := tls.store [separator]

def opCacheAdd4Byte (x : UInt32) (tls : ThreadLocal) : Except Fault ThreadLocal :=
  tls.store (le 4 x.toNat)

def opCacheAdd8Byte (tls : ThreadLocal) (x : UInt64) : Except Fault ThreadLocal :=
  tls.store (le8 x)

/-- `memcpy_s` to the offset, with `K_HASH_BUF_SIZE - hashOffset` for the room. -/
def memcpy (copy : MemcpyS) (src : Option (List Byte)) (count : Nat) (tls : ThreadLocal) :
    Except Fault ThreadLocal := do
  let destMax := (hashBufSize + (2 ^ 64 - tls.hashOffset)) % 2 ^ 64
  let tls ← tls.put (copy.written destMax src count)
  return tls.advance count

/-- `CheckHashBufCapacity`, and what the routine does if it holds. -/
def checkHashBufCapacity (addSize : Nat) (write : ThreadLocal → Except Fault ThreadLocal)
    (tls : ThreadLocal) : Except Fault ThreadLocal :=
  if (tls.hashOffset + addSize) % 2 ^ 64 > hashBufSize then
    .ok { tls with hashOffset := kInvalidHashOffset }
  else write tls

/-! ## Parameters -/

def addSeperator (tls : ThreadLocal) : Except Fault ThreadLocal :=
  tls.checkHashBufCapacity 1 opCacheAddSeperator

/-- `tensorLabelList.push_back`. -/
def pushLabel (label : Nat) (tls : ThreadLocal) : Except Fault ThreadLocal :=
  if tls.tensorLabelList.length = maxLabels then .error .lengthError
  else .ok { tls with tensorLabelList := tls.tensorLabelList ++ [label] }

/-- `AddAclTensorToCachedList`, for the labels. -/
def addAclTensorToCachedList (object : Nat) (tls : ThreadLocal) : Except Fault ThreadLocal :=
  match tls.tensorLabelMap.lookup object with
  | none =>
    pushLabel tls.tensorLabelNum
      { tls with
        tensorLabelNum := tls.tensorLabelNum + 1
        tensorLabelMap := (object, tls.tensorLabelNum) :: tls.tensorLabelMap }
  | some label => tls.pushLabel label

/-- `OpCahceAddShapeInfo`, and what the caller does if it returns true; strides are written the
same way. -/
def opCahceAddShapeInfo (shape : List Int64) (rest : ThreadLocal → Except Fault ThreadLocal)
    (tls : ThreadLocal) : Except Fault ThreadLocal :=
  tls.checkHashBufCapacity (8 * shape.length + 1) fun tls => do
    let tls ← shape.foldlM (fun tls d => tls.opCacheAdd8Byte d.toUInt64) tls
    let tls ← tls.opCacheAddSeperator
    rest tls

/-- `AddParamToBuf(const aclTensor *)`. -/
def addTensor (tls : ThreadLocal) : Option Tensor → Except Fault ThreadLocal
  | none => tls.addSeperator
  | some tensor => do
    let tls ← tls.addAclTensorToCachedList tensor.object
    tls.opCahceAddShapeInfo tensor.viewShape <|
      opCahceAddShapeInfo tensor.viewStrides <|
      opCahceAddShapeInfo tensor.storageShape <|
      checkHashBufCapacity (4 + 1 + 8 + 1 + 4) fun tls => do
        let tls ← tls.opCacheAdd4Byte tensor.dataType.code
        let tls ← tls.opCacheAddSeperator
        let tls ← tls.opCacheAdd8Byte tensor.viewOffset.toUInt64
        let tls ← tls.opCacheAddSeperator
        tls.opCacheAdd4Byte tensor.viewFormat.code

def opCacheAddCounter (counter : Nat) (tls : ThreadLocal) : Except Fault ThreadLocal :=
  tls.checkHashBufCapacity 8 fun tls => tls.opCacheAdd8Byte (UInt64.ofNat counter)

/-- `AddOpConfigInfoToBuf`. -/
def addOpConfigInfoToBuf (aicNum aivNum : UInt32) (tls : ThreadLocal) : Except Fault ThreadLocal :=
  tls.checkHashBufCapacity 8 fun tls => tls.store (le 4 aicNum.toNat ++ le 4 aivNum.toNat)

variable {α : Type}

/-- `AddParamToBuf(const acl…List *)`: a member without room does not stop the loop. -/
def addList (addMember : ThreadLocal → α → Except Fault ThreadLocal) (tls : ThreadLocal) :
    Option (List α) → Except Fault ThreadLocal
  | none => tls.addSeperator
  | some members => do
    let tls ← members.foldlM addMember tls
    tls.opCacheAddCounter members.length

variable (copy : MemcpyS)

/-- `AddParamToBuf(const aclScalar *)`. -/
def addScalar (tls : ThreadLocal) : Option Scalar → Except Fault ThreadLocal
  | none => tls.addSeperator
  | some scalar =>
    tls.checkHashBufCapacity (typeSize scalar.dataType + 1) fun tls => do
      let tls ← tls.memcpy copy (some scalar.data) (typeSize scalar.dataType)
      tls.opCacheAddSeperator

/-- `OpCacheAddArray` for elements of `size` bytes. -/
def opCacheAddArray (size : Nat) (bytes : α → List Byte) (elements : List α) (tls : ThreadLocal) :
    Except Fault ThreadLocal :=
  tls.checkHashBufCapacity (elements.length * size + 8) fun tls => do
    let tls ← tls.memcpy copy (some (elements.flatMap bytes)) (elements.length * size)
    tls.opCacheAdd8Byte (UInt64.ofNat elements.length)

/-- The four `AddParamToBuf(const acl…Array *)` with an overload. -/
def addArray (size : Nat) (bytes : α → List Byte) (tls : ThreadLocal) :
    Option (List α) → Except Fault ThreadLocal
  | none => tls.addSeperator
  | some elements => tls.opCacheAddArray copy size bytes elements

/-- `AddParamToBufV2`, and the two templates of the header: `count` bytes from `addr`. -/
def addParamToBufV2 (addr : Option (List Byte)) (count : Nat) (tls : ThreadLocal) :
    Except Fault ThreadLocal :=
  tls.checkHashBufCapacity count fun tls => tls.memcpy copy addr count

/-- The copy of an object. -/
def addObject (bytes : List Byte) (tls : ThreadLocal) : Except Fault ThreadLocal :=
  tls.addParamToBufV2 copy (some bytes) bytes.length

/-- `AddParamToBuf(const char *)`. -/
def addCharPtr (tls : ThreadLocal) : Option (List Byte) → Except Fault ThreadLocal
  | none => tls.addSeperator
  | some c => do
    let tls ← tls.addObject copy c
    tls.opCacheAddCounter c.length

/-- `AddParamToBuf`, by overload. -/
def addParamToBuf (tls : ThreadLocal) : Param Tensor UInt64 → Except Fault ThreadLocal
  | .tensor tensor => tls.addTensor tensor
  | .tensorList tensors => tls.addList addTensor tensors
  | .intArray value => tls.addArray copy 8 (fun d : Int64 => le8 d.toUInt64) value
  | .boolArray value => tls.addArray copy 1 TlsData.boolBytes value
  | .floatArray value => tls.addArray copy 4 (fun x : UInt32 => le 4 x.toNat) value
  | .fp16Array value => tls.addArray copy 2 (fun x : UInt16 => le 2 x.toNat) value
  | .bf16Array value => tls.addObject copy (le8 value)
  | .scalar scalar => tls.addScalar copy scalar
  | .scalarList scalars => tls.addList (addScalar copy) scalars
  | .string s => tls.addObject copy s
  | .charPtr c => tls.addCharPtr copy c
  | .dataType dtype => tls.addObject copy (le 4 dtype.code.toNat)
  | .plain value => tls.addObject copy value

/-! ## The key -/

/-- `SetOpCacheKey`: the thread-local data and `key` behind the call. -/
def setOpCacheKey (key : OpCacheKey) (tls : ThreadLocal) :
    Except Fault (ThreadLocal × OpCacheKey) :=
  if tls.context.usePTAHash then .ok (tls, tls.context.cacheHashKey)
  else do
    let tls ← tls.checkHashBufCapacity (8 * tls.tensorLabelList.length) fun tls =>
      tls.tensorLabelList.foldlM (fun tls label => tls.opCacheAdd8Byte (UInt64.ofNat label)) tls
    if tls.hashOffset = kInvalidHashOffset then
      return (tls.setPTACacheHashKey .empty, key)
    else
      let key := ⟨some .hashBuf, tls.hashOffset⟩
      return (tls.setPTACacheHashKey key, key)

/-- `GetFromCache` up to the look-up, past `CheckCacheable`, which may end it without a key. -/
def getFromCache (call : Call) (tls : ThreadLocal) : Except Fault (ThreadLocal × OpCacheKey) := do
  let tls := tls.initExecutorCacheThreadLocal
  let tls ← tls.addCharPtr copy (some call.api)
  let tls ← tls.addOpConfigInfoToBuf call.aicNum call.aivNum
  let tls ← call.inputs.foldlM (addParamToBuf copy) tls
  let tls ← call.outputs.foldlM (addParamToBuf copy) tls
  tls.setOpCacheKey .empty

end ThreadLocal

/-! ## Calls -/

/-- The bytes of the dimensions and strides of a tensor. -/
def Tensor.sizes (t : Tensor) : List Nat :=
  [8 * t.viewShape.length, 8 * t.viewStrides.length, 8 * t.storageShape.length]

/-- The bytes of the objects of a parameter whose size is not the type's. -/
def Param.sizes (p : Param Tensor UInt64) : List Nat :=
  match p with
  | .tensor _ | .tensorList _ => p.tensors.flatMap Tensor.sizes
  | .intArray value => [(value.getD []).length * 8]
  | .boolArray value => [(value.getD []).length * 1]
  | .floatArray value => [(value.getD []).length * 4]
  | .fp16Array value => [(value.getD []).length * 2]
  | .string s => [s.length]
  | .charPtr c => [(c.getD []).length]
  | .plain value => [value.length]
  | .bf16Array _ | .scalar _ | .scalarList _ | .dataType _ => []

/-- No object is larger than `PTRDIFF_MAX`. -/
def Param.Fits (p : Param Tensor UInt64) : Prop := ∀ size ∈ p.sizes, size < 2 ^ 63

/-- What may be called between an `Init…` and `SetOpCacheKey`. `addParamToBufFrom` is the
template with an address, `addNothing` the overload without a parameter. -/
inductive AddCall where
  | addParamToBuf (param : Param Tensor UInt64) (fits : param.Fits)
  | addParamToBufFrom (sizeofT : UInt64) (addr : Option (List Byte)) (size : UInt64)
  | addNothing
  | addSeperator
  | addOpConfigInfoToBuf (aicNum aivNum : UInt32)

/-- The calls that start a key. -/
inductive Init where
  | initExecutorCacheThreadLocal
  | resetCacheThreadLocal
  | initPTACacheThreadLocal
deriving DecidableEq

namespace ThreadLocal

def init (tls : ThreadLocal) : Init → ThreadLocal
  | .initExecutorCacheThreadLocal => tls.initExecutorCacheThreadLocal
  | .resetCacheThreadLocal => tls.resetCacheThreadLocal
  | .initPTACacheThreadLocal => tls.initPTACacheThreadLocal

def add (copy : MemcpyS) (tls : ThreadLocal) : AddCall → Except Fault ThreadLocal
  | .addParamToBuf param _ => tls.addParamToBuf copy param
  | .addParamToBufFrom sizeofT addr size =>
    tls.addParamToBufV2 copy addr (size * sizeofT).toNat
  | .addNothing => .ok tls
  | .addSeperator => tls.addSeperator
  | .addOpConfigInfoToBuf aicNum aivNum => tls.addOpConfigInfoToBuf aicNum aivNum

end ThreadLocal

end OpBase.Cache.Key
