import OpBase.Base.DataType
import OpBase.Lib.Bytes

/-!
# The args-cache key of an individual op

`individual_op/executor/indv_args_pool.cpp`, `indv_executor_tensor.cpp` and
`individual_op/api/individual_op_api.cpp`: the key under which the tiling of a call
is kept in the `ArgsPool`. There are two ways to it.

With `matchArgsV2` every `NnopbaseAdd…` call appends its part as it is made, behind
the name of the op; `NnopbaseMatchArgs` closes the key with the core numbers and
the rank. Otherwise `GenArgsKey` writes the whole key from the slots that the
arguments were saved in.

Both write into `inputKey`, a vector that grows in chunks of 10240 bytes.
-/

namespace OpBase.Indv

open OpBase.Lib

/-! ## Arguments -/

/-- A type with an entry in the table of `op::TypeSize`: an enumerator of `ge::DataType`. -/
abbrev ElementType := { d : DataType // d.code.toNat < dataTypeSize.length }

/-- `gert::Shape`: at most 25 dimensions. -/
abbrev Shape := { dims : List Int64 // dims.length ≤ 25 }

/-- An array whose `Size()` is a `uint64_t`. -/
abbrev Sized (α : Type) := { xs : List α // xs.length < 2 ^ 64 }

/-- What the key is to tell about an `aclTensor`. `storageFormat` is a `ge::Format`: a
primary format in the lowest byte, sub-format and C0 above it. -/
@[ext]
structure Tensor where
  dataType : ElementType
  storageFormat : UInt32
  viewShape : Shape
deriving DecidableEq

/-- An input parameter; of a scalar, the data type. `srcIndex` is the input whose data type
a scalar takes (the source's `-1` is `none`), `dtype` a data type to convert it to
(`DT_UNDEFINED` is `none`). -/
inductive Input where
  | tensor (tensor : Option Tensor)
  | intArray (array : Option (Sized Int64))
  | boolArray (array : Option (Sized Bool))
  | floatArray (array : Option (Sized UInt32))
  | tensorList (tensors : Option (List (Option Tensor)))
  | scalar (scalar : Option ElementType) (srcIndex : Option Nat) (dtype : Option ElementType)
  | scalarList (scalars : Option (List (Option ElementType))) (srcIndex : Option Nat)
      (dtype : Option ElementType)
deriving DecidableEq

/-- An output parameter. -/
inductive Output where
  | tensor (tensor : Option Tensor)
  | tensorList (tensors : Option (List (Option Tensor)))
deriving DecidableEq

/-- An attribute, as the bytes at `attrAddr`: a plain value, an array with an element size,
or a string with the zero behind it. -/
inductive Attr where
  | plain (value : List Byte)
  | array (elementSize : Nat) (pos : 0 < elementSize)
      (elements : List { b : List Byte // b.length = elementSize })
  | string (chars : { s : List Byte // 0 ∉ s })
deriving DecidableEq

def Attr.bytes : Attr → List Byte
  | .plain value => value
  | .array _ _ elements => elements.flatMap Subtype.val
  | .string chars => chars.val ++ [0]

/-! ## The buffer -/

/-- `NNOPBASE_MAX_ARGS_KEY_LEN`. -/
def maxArgsKeyLen : Nat := 10240

/-- `inputKey` with `keyLen` bytes in use, and `remainKeyLen`. -/
@[ext]
structure KeyBuf where
  key : List Byte
  remainKeyLen : Nat
  size : Nat
  fits : key.length + remainKeyLen ≤ size

namespace KeyBuf

/-- `if (remainKeyLen < len)`, the vector grows by so many chunks. -/
def reserve (b : KeyBuf) (len chunks : Nat) : KeyBuf :=
  if b.remainKeyLen < len then
    { key := b.key
      remainKeyLen := b.remainKeyLen + chunks * maxArgsKeyLen
      size := b.size + chunks * maxArgsKeyLen
      fits := by
        have := b.fits
        omega }
  else b

/-- Bytes are appended; `none` is a write past the room the function counts on. -/
def put (b : KeyBuf) (bytes : List Byte) : Option KeyBuf :=
  if h : bytes.length ≤ b.remainKeyLen then
    some
      { key := b.key ++ bytes
        remainKeyLen := b.remainKeyLen - bytes.length
        size := b.size
        fits := by
          have := b.fits
          rw [List.length_append]
          omega }
  else none

end KeyBuf

/-! ## The bytes -/

/-- `'/'`. -/
def placeHolder : Byte := 47

/-- `ge::FORMAT_ND`. -/
def formatND : UInt32 := 2

/-- `NNOPBASE_BASE_BYTES`: data type and format in a byte each, four bytes for the number
of dimensions. -/
def baseBytes (dataType : DataType) (format : UInt32) (dimNum : Nat) : List Byte :=
  [dataType.code.toUInt8, format.toUInt8] ++ le 4 dimNum

def dimBytes (dims : List Int64) : List Byte := dims.flatMap fun d => le8 d.toUInt64

def shapeInfo (t : Tensor) : List Byte :=
  baseBytes t.dataType t.storageFormat t.viewShape.val.length ++ dimBytes t.viewShape

/-! ## One parameter -/

namespace KeyBuf

/-- `NnopbaseGenPlaceHolderKey`. -/
def genPlaceHolderKey (b : KeyBuf) : Option KeyBuf := (b.reserve 1 1).put [placeHolder]

/-- `NnopbaseAddShapeInfo`. -/
def addShapeInfo (b : KeyBuf) (t : Tensor) : Option KeyBuf :=
  (b.reserve (6 + t.viewShape.val.length * 8) 1).put (shapeInfo t)

/-- `NnopbaseGenTensorKey`. -/
def genTensorKey (b : KeyBuf) : Option Tensor → Option KeyBuf
  | none => b.genPlaceHolderKey
  | some t => b.addShapeInfo t

/-- `NnopbaseExecutorGenValueDependTensorKey`. -/
def genValueDependTensorKey (b : KeyBuf) (data : List Byte) (dim : Nat) (dType : DataType) :
    Option KeyBuf := do
  let len := 14 + data.length
  let b := b.reserve len (len / maxArgsKeyLen + 1)
  let b ← b.put (baseBytes dType formatND 1 ++ le8 (UInt64.ofNat dim))
  b.put data

/-- The array inputs, which differ in the element type. -/
def genArrayKey {α : Type} (b : KeyBuf) (bytes : α → List Byte) (dType : DataType) :
    Option (Sized α) → Option KeyBuf
  | none => b.genPlaceHolderKey
  | some array => b.genValueDependTensorKey (array.val.flatMap bytes) array.val.length dType

/-- A run of equal tensors: the tensor and how often it stands there. -/
def addRun (b : KeyBuf) (t : Tensor) (cnt : Nat) : Option KeyBuf := do
  let b ← b.addShapeInfo t
  (b.reserve 1 1).put [UInt8.ofNat cnt]

def addPrev (b : KeyBuf) (prev : Option Tensor) (cnt : Nat) : Option KeyBuf :=
  match prev with
  | none => some b
  | some t => b.addRun t cnt

/-- The loop of `NnopbaseExecutorGenTensorListKey` from the second element on, and what
comes behind it. -/
def tensorListLoop (b : KeyBuf) (prev : Option Tensor) (cnt : Nat) :
    List (Option Tensor) → Option KeyBuf
  | [] => b.addPrev prev cnt
  | x :: xs =>
    if x ≠ none ∧ x = prev then b.tensorListLoop prev (cnt + 1) xs
    else do
      let b ← b.addPrev prev cnt
      match x with
      | none =>
        -- `continue` leaves the count as it is; it is set again before it is used.
        let b ← b.genPlaceHolderKey
        b.tensorListLoop none cnt xs
      | some t => b.tensorListLoop (some t) 1 xs

/-- `NnopbaseExecutorGenTensorListKey`. -/
def genTensorListKey (b : KeyBuf) : Option (List (Option Tensor)) → Option KeyBuf
  | none | some [] => b.genPlaceHolderKey
  | some (x :: xs) => b.tensorListLoop x 1 xs

/-- The data type under which a scalar is entered. A source parameter in front of it is
asked for the type in its slot; with this key the slots are not filled before the
lookup, so that is what an earlier call left there. -/
def scalarType (slotType : Nat → DataType) (index : Nat) (own : DataType)
    (srcIndex : Option Nat) (dtype : Option ElementType) : DataType :=
  match dtype with
  | some d => d
  | none =>
    match srcIndex with
    | some i => if i < index then slotType i else own
    | none => own

/-- `NnopbaseExecutorGenScalarKey`. -/
def genScalarKey (b : KeyBuf) (slotType : Nat → DataType) (scalar : Option ElementType)
    (index : Nat) (srcIndex : Option Nat) (dtype : Option ElementType) : Option KeyBuf :=
  match scalar with
  | none => b.genPlaceHolderKey
  | some own =>
    (b.reserve 6 1).put (baseBytes (scalarType slotType index own srcIndex dtype) formatND 0)

/-- `NnopbaseExecutorGenScalarListKey`: the first element stands for all. It may not be
null. -/
def genScalarListKey (b : KeyBuf) (slotType : Nat → DataType)
    (scalars : Option (List (Option ElementType))) (index : Nat) (srcIndex : Option Nat)
    (dtype : Option ElementType) : Option KeyBuf :=
  match scalars with
  | none | some [] => b.genPlaceHolderKey
  | some (none :: _) => none
  | some (some own :: rest) =>
    (b.reserve 14 1).put (baseBytes (scalarType slotType index own srcIndex dtype) formatND 1 ++
      le8 (UInt64.ofNat (rest.length + 1)))

/-- The bytes of a `bool`. -/
def boolByte (x : Bool) : List Byte := [if x then 1 else 0]

/-- `NnopbaseAddInput`, `NnopbaseAddIgnoreContinuesInput`, `NnopbaseAddIntArrayInput` and the
other functions that add an input. -/
def addInput (b : KeyBuf) (slotType : Nat → DataType) (input : Input) (index : Nat) :
    Option KeyBuf :=
  match input with
  | .tensor t => b.genTensorKey t
  | .intArray a => b.genArrayKey (fun x => le8 x.toUInt64) .DT_INT64 a
  | .boolArray a => b.genArrayKey boolByte .DT_BOOL a
  | .floatArray a => b.genArrayKey (fun x => le 4 x.toNat) .DT_FLOAT a
  | .tensorList ts => b.genTensorListKey ts
  | .scalar s srcIndex dtype => b.genScalarKey slotType s index srcIndex dtype
  | .scalarList ss srcIndex dtype => b.genScalarListKey slotType ss index srcIndex dtype

/-- The first output and the first attribute put a mark in front of their group. -/
def genGroupMark (b : KeyBuf) (index : Nat) : Option KeyBuf :=
  if index = 0 then b.genPlaceHolderKey else some b

/-- `NnopbaseAddOutput` and `NnopbaseAddDynamicOutput`. -/
def addOutput (b : KeyBuf) (output : Output) (index : Nat) : Option KeyBuf := do
  let b ← b.genGroupMark index
  match output with
  | .tensor t => b.genTensorKey t
  | .tensorList ts => b.genTensorListKey ts

/-- `NnopbaseExecutorAddAttr`. -/
def addAttr (b : KeyBuf) (attr : Attr) (index : Nat) : Option KeyBuf := do
  let b ← b.genGroupMark index
  let len := attr.bytes.length
  (b.reserve len (len / maxArgsKeyLen + 1)).put attr.bytes

/-- `NnopbaseAddCoreNumInfo` and `AddMc2RankIdInfoToKey`: a mark and the bytes of a value. -/
def addMarked (b : KeyBuf) (bytes : List Byte) : Option KeyBuf := do
  let b ← b.genPlaceHolderKey
  (b.reserve bytes.length 1).put bytes

def addCoreNumInfo (b : KeyBuf) (aicNum aivNum : UInt32) : Option KeyBuf :=
  b.addMarked (le 4 aicNum.toNat ++ le 4 aivNum.toNat)

def addMc2RankIdInfo (b : KeyBuf) (mc2RankId : UInt32) : Option KeyBuf :=
  b.addMarked (le 4 mc2RankId.toNat)

end KeyBuf

/-! ## A call -/

/-- The name of an op, which the first 10240 bytes have room for. -/
abbrev OpType := { name : List Byte // name.length ≤ maxArgsKeyLen }

/-- A call through the `NnopbaseAdd…` functions, inputs first, then outputs and attributes,
each group in the order of its indices. `slotType` is what the executor's input slots
were left with. -/
structure Call where
  opType : OpType
  slotType : Nat → DataType
  inputs : List Input
  outputs : List Output
  attrs : List Attr
  aicNum : UInt32
  aivNum : UInt32
  mc2RankId : UInt32

/-- `NnopbaseGetExecutor`: the name has its place at the front. -/
def KeyBuf.start (opType : OpType) : KeyBuf where
  key := opType
  remainKeyLen := maxArgsKeyLen - opType.val.length
  size := maxArgsKeyLen
  fits := by
    have := opType.property
    omega

/-- The key that `NnopbaseMatchArgs` goes into the pool with. -/
def Call.keyBuf (c : Call) : Option KeyBuf := do
  let b := KeyBuf.start c.opType
  let b ← c.inputs.zipIdx.foldlM (fun b p => b.addInput c.slotType p.1 p.2) b
  let b ← c.outputs.zipIdx.foldlM (fun b p => b.addOutput p.1 p.2) b
  let b ← c.attrs.zipIdx.foldlM (fun b p => b.addAttr p.1 p.2) b
  let b ← b.addCoreNumInfo c.aicNum c.aivNum
  b.addMc2RankIdInfo c.mc2RankId

def Call.key (c : Call) : Option (List Byte) := c.keyBuf.map KeyBuf.key

/-! ## The key from the slots -/

/-- A slot that is not null: its `rt2Tensor`, and the bytes behind the address where the
kernel's choice depends on them. -/
structure Slot where
  dataType : DataType
  storageFormat : UInt32
  storageShape : Shape
  value : Option (List Byte)
deriving DecidableEq

/-- What `GenArgsKey` reads of an executor. -/
structure SlotCall where
  opType : OpType
  inputs : List (Option Slot)
  outputs : List (Option Slot)
  attrs : List Attr
  aicNum : UInt32
  aivNum : UInt32
  mc2RankId : UInt32

/-- `AddShapeInfo`. -/
def slotInfo (s : Slot) : List Byte :=
  baseBytes s.dataType s.storageFormat s.storageShape.val.length ++ dimBytes s.storageShape

def inputSlotBytes : Option Slot → List Byte
  | none => [placeHolder]
  | some s => slotInfo s ++ s.value.getD []

def outputSlotBytes : Option Slot → List Byte
  | none => [placeHolder]
  | some s => slotInfo s

/-- The pieces that `GenArgsKey` writes, in order. -/
def SlotCall.pieces (c : SlotCall) : List (List Byte) :=
  [c.opType.val] ++ c.inputs.map inputSlotBytes ++ [[placeHolder]] ++
    c.outputs.map outputSlotBytes ++ [[placeHolder]] ++ c.attrs.map Attr.bytes ++
    [[placeHolder], le 4 c.aicNum.toNat ++ le 4 c.aivNum.toNat, [placeHolder],
      le 4 c.mc2RankId.toNat]

/-- `CalcKeyLen`. -/
def SlotCall.calcKeyLen (c : SlotCall) : Nat :=
  let slotLen (s : Slot) := 6 + 8 * s.storageShape.val.length
  c.opType.val.length +
    (c.inputs.map fun s =>
      s.elim 1 fun s => slotLen s + s.value.elim 0 List.length).sum + 1 +
    (c.outputs.map fun s => s.elim 1 slotLen).sum + 1 +
    (c.attrs.map fun a => a.bytes.length).sum + 1 + 8 + 1 + 4

/-- `GenArgsKey`, in a vector of at least 10240 bytes. -/
def SlotCall.key (c : SlotCall) : Option (List Byte) :=
  let size := max maxArgsKeyLen c.calcKeyLen
  let b : KeyBuf := ⟨[], size, size, Nat.le_of_eq (Nat.zero_add size)⟩
  (c.pieces.foldlM KeyBuf.put b).map fun b => b.key.take c.calcKeyLen

end OpBase.Indv
