import OpBase.Cache.KeyBuffer
import OpBase.Indv.Tensors
import OpBase.Lib.Cursor
import OpBase.Lib.Run

/-!
# The keys an executor looks a kernel up with

`individual_op/executor/indv_executor_ext.cpp`: `NnopbaseExecutorGenDynamicKey` writes a byte
for each data type and format, `NnopbaseExecutorGenStaticKey` a word for each of these, for
each dimension and for each value. Both leave the key in `binInfoKey.verbose`, with its length
and its hash beside it.

The buffer is kept from one generation to the next. A static key gets a new one only if its
size (`NnopbaseExecutorComputeGenKeySize`) is above `bufLen`, a dynamic key only if there is
none; otherwise the front is taken to be in place and is skipped.

A store outside the buffer is `none`. `std::hash<uint64_t>` is a parameter.
-/

namespace OpBase.Indv.BinKey

open OpBase.Lib
open OpBase.Cache.Key (securecMemMaxLen)

/-! ## Arguments -/

/-- The name of an op. `NnopbaseExecutorSetRegInfo` copies it with `strcpy_s`, which takes no
more than this. -/
abbrev OpType := { s : List Byte // 0 ∉ s ∧ s.length < securecMemMaxLen }

/-- An op: its name and its IR signature. -/
structure Op where
  opType : OpType
  inputs : List ParamType
  outputs : List ParamType

/-- `NnopbaseAttrAddr`: the `size` bytes at `addr`. `NnopbaseExecutorAddAttr` takes for a
vector what comes with an element size. -/
structure AttrAddr where
  data : List Byte
  elementSize : Nat
deriving DecidableEq

def AttrAddr.isVector (a : AttrAddr) : Bool := a.elementSize ≠ 0

/-- What an executor of the op holds. -/
structure KeyArgs (op : Op) where
  inputs : Tensors
  outputs : Tensors
  attrs : List AttrAddr
  inputs_signature : inputs.signature = op.inputs
  outputs_signature : outputs.signature = op.outputs
  inputs_slots : inputs.SlotsExist
  outputs_slots : outputs.SlotsExist

/-- `NnopbaseSysGlobalParams`, as far as a key tells it. -/
structure SysParams where
  deterministic : Bool
  precision : Byte
deriving DecidableEq

/-- `BinInfoKey`. -/
@[ext]
structure BinInfoKey where
  hashKey : UInt64
  verbose : List Byte
  len : Nat
  bufLen : Nat
deriving DecidableEq

/-- The key of an executor that has generated none. -/
def BinInfoKey.fresh : BinInfoKey := ⟨0, [], 0, 0⟩

/-! ## Words -/

/-- `'_'`. -/
def nullMark : UInt64 := 95

/-- `NnopbaseAppendBinary`. `memcpy_s` writes nothing if `bufLen` is above its limit, and
clears the destination if the source is longer; `buf` moves on after a copy only. -/
def appendBinary (bufLen : Nat) (src : List Byte) (c : Cursor) : Option Cursor :=
  if securecMemMaxLen < bufLen then some c
  else if src.length ≤ bufLen then c.put src
  else do
    let reset ← c.put (List.replicate bufLen 0)
    Cursor.seek reset.buf c.pos

/-- The last bytes of a value, shifted into a word one by one. -/
def littleEndien (bytes : List Byte) : UInt64 :=
  bytes.zipIdx.foldl
    (fun word p => word ||| (word ||| p.1.toUInt64 <<< (8 * p.2).toUInt64)) 0

/-- The whole words of a value, copied at once. -/
def appendWords (data : List Byte) (c : Cursor) : Option Cursor :=
  let length := data.length / 8
  if length ≠ 0 then appendBinary (8 * length) (data.take (8 * length)) c else some c

/-- What is left of a value, in a word of its own. -/
def appendRest (data : List Byte) (c : Cursor) : Option Cursor :=
  if data.length % 8 ≠ 0 then c.put (le8 (littleEndien (data.drop (8 * (data.length / 8)))))
  else some c

/-- `NnopbaseExecutor8ByteCopy`. -/
def executor8ByteCopy (data : List Byte) (c : Cursor) : Option Cursor := do
  let c ← appendWords data c
  appendRest data c

/-- The elements of an array, each with `size` bytes; what is left over is dropped. -/
def chunks (size : Nat) (data : List Byte) : List (List Byte) :=
  (List.range (data.length / size)).map fun k => (data.drop (size * k)).take size

/-! ## The static key -/

/-- The first slot of a parameter is marked as required or optional. -/
def genTypeKey (t : ExtTensor) (c : Cursor) : Option Cursor :=
  if t.isRequired || t.isOptional then do
    let c ← c.put (le8 t.rt2Tensor.dataType.code.toUInt64)
    c.put (le8 t.rt2Tensor.storageFormat.toUInt64)
  else some c

def genValuesKey (t : ExtTensor) (c : Cursor) : Option Cursor :=
  if t.valueDepend then
    (chunks (typeSize t.rt2Tensor.dataType) t.rt2Tensor.data).foldlM
      (fun c e => executor8ByteCopy e c) c
  else some c

/-- The body of the loop in `NnopbaseExecutorGenTensorsKey`. -/
def genTensorKey (c : Cursor) (t : ExtTensor) : Option Cursor :=
  if t.isNull then c.put (le8 nullMark)
  else do
    let c ← genTypeKey t c
    let c ← t.rt2Tensor.storageShape.val.foldlM (fun c d => c.put (le8 d.toUInt64)) c
    genValuesKey t c

/-- `NnopbaseExecutorGenTensorsKey`, with the number of tensors its callers pass. -/
def genTensorsKey (t : Tensors) (c : Cursor) : Option Cursor :=
  (t.extTensors.take (t.nonDynamicCnt + t.dynamicCnt)).foldlM genTensorKey c

/-- The body of the loop in `NnopbaseExecutorGenAttrsKey`. -/
def genAttrKey (c : Cursor) (a : AttrAddr) : Option Cursor :=
  if a.isVector then (chunks a.elementSize a.data).foldlM (fun c e => executor8ByteCopy e c) c
  else executor8ByteCopy a.data c

/-- `NnopbaseExecutorGenAttrsKey`. -/
def genAttrsKey (attrs : List AttrAddr) (c : Cursor) : Option Cursor := attrs.foldlM genAttrKey c

/-- What a tensor adds to `len`. The values are looked at in the loop over the inputs
only. -/
def addTensorSize (values : Bool) (len : UInt64) (t : ExtTensor) : UInt64 :=
  if t.isNull then len + 8
  else
    let tensor := t.rt2Tensor
    let len := if t.isRequired || t.isOptional then len + 16 else len
    let len := len + UInt64.ofNat tensor.storageShape.val.length * 8
    if values && t.valueDepend then
      len + UInt64.ofNat (tensor.data.length / typeSize tensor.dataType) * 8
    else len

/-- `NnopbaseExecutorGet8ByteSize`, called with a pointer to the lower half of `len`. -/
def get8ByteSize (totalSize : Nat) (len : UInt64) : UInt64 :=
  let size := if totalSize % 8 = 0 then totalSize else (totalSize / 8 + 1) * 8
  UInt64.ofNat (len.toNat / 2 ^ 32 * 2 ^ 32 + (len.toNat + size) % 2 ^ 32)

/-- What an attribute adds to `len`. -/
def addAttrSize (len : UInt64) (a : AttrAddr) : UInt64 :=
  if a.isVector then len + UInt64.ofNat (a.data.length / a.elementSize) * 8
  else get8ByteSize a.data.length len

variable {op : Op}

/-- `NnopbaseExecutorComputeGenKeySize`. -/
def computeGenKeySize (a : KeyArgs op) : UInt64 :=
  let len := UInt64.ofNat op.opType.val.length + 16
  let slots (t : Tensors) := t.extTensors.take (t.nonDynamicCnt + t.dynamicCnt)
  let len := (slots a.inputs).foldl (addTensorSize true) len
  let len := (slots a.outputs).foldl (addTensorSize false) len
  a.attrs.foldl addAttrSize len

/-- `NNOPBASE_MAX_STATICKEY_LEN`. -/
def maxStatickeyLen : Nat := 8192

/-- `NNOPBASE_REPLAY_VERKEY_EXT_BUF_LEN`. -/
def replayVerkeyExtBufLen : Nat := 250

/-! ## The hash -/

/-- `NNOPBASE_HASH_SEED`. -/
def hashSeed : UInt64 := 0x9e3779b9

/-- A word joins the hash. -/
def hashWord (hasher : UInt64 → UInt64) (seed word : UInt64) : UInt64 :=
  seed ^^^ (hasher word + hashSeed + (seed <<< 6) + (seed >>> 2))

/-- `NnopbaseHashBinary`. The bytes behind the last word are shifted once more after the last
of them. -/
def hashBinary (hasher : UInt64 → UInt64) (bytes : List Byte) : UInt64 :=
  let seed := (chunks 8 bytes).foldl (fun seed w => hashWord hasher seed (UInt64.ofNat (ofLe w))) 0
  let rest := bytes.drop (8 * (bytes.length / 8))
  if rest ≠ [] then
    hashWord hasher seed (rest.foldl (fun val b => (val ||| b.toUInt64) <<< 8) 0)
  else seed

/-- `NNOPBASE_NORM_MAX_BIN_BUCKETS`. -/
def normMaxBinBuckets : UInt64 := 1024

/-- What both generators end with: the length and the hash of what was written. -/
def BinInfoKey.close (hasher : UInt64 → UInt64) (c : Cursor) (bufLen : Nat) : BinInfoKey :=
  let len := c.pos % 2 ^ 32
  ⟨hashBinary hasher (c.buf.take len) % normMaxBinBuckets, c.buf, len, bufLen⟩

/-! ## The generators -/

/-- The front of a static key in a new buffer. -/
def genStaticFront (sys : SysParams) (opType : OpType) (bufLen : Nat) : Option Cursor := do
  let c ← appendBinary bufLen opType.val (Cursor.start (List.replicate bufLen 0))
  let c ← c.put (le8 sys.deterministic.toUInt64)
  c.put (le8 sys.precision.toUInt64)

/-- What a static key has behind the front. -/
def genItemsKey (a : KeyArgs op) (c : Cursor) : Option Cursor := do
  let c ← genTensorsKey a.inputs c
  let c ← genTensorsKey a.outputs c
  genAttrsKey a.attrs c

/-- `NnopbaseExecutorGenStaticKey`; `false` is `ACLNN_ERR_PARAM_INVALID`. -/
def genStaticKey (hasher : UInt64 → UInt64) (sys : SysParams) (a : KeyArgs op) (k : BinInfoKey) :
    Option (Bool × BinInfoKey) :=
  let len := (computeGenKeySize a).toNat
  if maxStatickeyLen < len then some (false, k)
  else if k.bufLen < len then do
    let bufLen := len + replayVerkeyExtBufLen
    let c ← genStaticFront sys op.opType bufLen
    let c ← genItemsKey a c
    return (true, .close hasher c bufLen)
  else do
    let c ← Cursor.seek k.verbose (op.opType.val.length + 16)
    let c ← genItemsKey a c
    return (true, .close hasher c k.bufLen)

/-- A parameter in `NnopbaseExecutorGenDynamicKey`: its first slot stands for it. -/
def genParamKey (t : Tensors) (c : Cursor) (p : ParamInstance) : Option Cursor :=
  if p.cfgNum = .optional then some c
  else do
    let slot ← t.extTensors[p.startIndex]?
    let c ← c.put [slot.rt2Tensor.dataType.code.toUInt8]
    c.put [slot.rt2Tensor.storageFormat.toUInt8]

/-- `len`, the bytes of a dynamic key. -/
def dynamicKeyLen (a : KeyArgs op) : Nat :=
  (a.inputs.requiredCnt * 2 + a.inputs.dynamicNum * 2 + a.outputs.requiredCnt * 2 +
    a.outputs.dynamicNum * 2 + op.opType.val.length + 2) % 2 ^ 32

/-- `NNOPBASE_VERKEY_EXT_BUF_LEN`. -/
def verkeyExtBufLen : Nat := 16

/-- What a dynamic key has behind the op type. -/
def genParamsKey (sys : SysParams) (a : KeyArgs op) (c : Cursor) : Option Cursor := do
  let c ← c.put [sys.deterministic.toUInt8]
  let c ← c.put [sys.precision]
  let c ← a.inputs.instances.foldlM (genParamKey a.inputs) c
  a.outputs.instances.foldlM (genParamKey a.outputs) c

/-- `NnopbaseExecutorGenDynamicKey`. -/
def genDynamicKey (hasher : UInt64 → UInt64) (sys : SysParams) (a : KeyArgs op) (k : BinInfoKey) :
    Option BinInfoKey :=
  if k.verbose = [] then do
    let size := dynamicKeyLen a + verkeyExtBufLen
    let bufLen := size % 2 ^ 32
    let c ← appendBinary bufLen op.opType.val (Cursor.start (List.replicate size 0))
    let c ← genParamsKey sys a c
    return .close hasher c bufLen
  else do
    let c ← Cursor.seek k.verbose op.opType.val.length
    let c ← genParamsKey sys a c
    return .close hasher c k.bufLen

/-! ## Generating again and again -/

/-- A generation, with the settings of the process and what the executor holds by then. -/
inductive Call (op : Op) where
  | static (sys : SysParams) (a : KeyArgs op)
  | dynamic (sys : SysParams) (a : KeyArgs op)

/-- Whether there is a key, and `binInfoKey` afterwards. -/
def Call.generate (hasher : UInt64 → UInt64) (k : BinInfoKey) : Call op → Option (Bool × BinInfoKey)
  | .static sys a => genStaticKey hasher sys a k
  | .dynamic sys a => (genDynamicKey hasher sys a k).map fun k' => (true, k')

def Call.step (hasher : UInt64 → UInt64) (k : BinInfoKey) (call : Call op) : Option BinInfoKey :=
  (call.generate hasher k).map Prod.snd

/-- `k` is what an executor has after some generations. -/
def Reached (hasher : UInt64 → UInt64) (op : Op) (k : BinInfoKey) : Prop :=
  ∃ history : List (Call op), run (Call.step hasher) .fresh history = some k

end OpBase.Indv.BinKey
