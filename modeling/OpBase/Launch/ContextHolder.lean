import OpBase.Base.DataType
import OpBase.Lib.Bytes
import OpBase.Lib.WriteLog

/-!
# The kernel context of a composite op

`kernel_context_holder.h` and `kernel_context_holder.cpp`: the tiling function of an op is given
a description of its arguments in one buffer, which is allocated once and used for every call.
Behind a header lie an anchor for each input of the IR, a descriptor for each tensor, the table
of the attributes and their bytes, and an anchor for each output; an anchor says which of the
descriptors belong to an argument. Where a part begins depends on what is in front of it.

The buffer is modelled by the log of what is written behind the header, the fields of the
header by fields. Pointers are offsets from the start of the buffer, and writes are not held
against its size here.
-/

namespace OpBase.ContextHolder

open OpBase.Lib

/-! ## Arguments -/

/-- What is read of an `aclTensor`; `tensor` is `GetTensor()`. -/
structure Tensor where
  dataType : DataType
  originalFormat : UInt32
  storageFormat : UInt32
  tensor : Nat
deriving DecidableEq

/-- `aclScalar`: the bytes are as many as the type has. -/
structure Scalar where
  dataType : DataType
  data : List Byte
  size : data.length = typeSize dataType

/-- `OpArg`. `int` stands for `OPARG_BOOL`, `OPARG_INT`, `OPARG_UINT` and `OPARG_IMPLMODE`, which
are read alike; a string is what is in front of its terminating zero; `other` has the types
that are neither tensors nor supported attributes. -/
inductive OpArg where
  | aclTensor (tensor : Option Tensor)
  | aclTensorList (tensorList : Option (List (Option Tensor)))
  | dataType (value : DataType)
  | int (ivalue : UInt64)
  | float (fvalue : UInt32)
  | double (dvalue : UInt64)
  | string (value : Option (List Byte))
  | aclScalar (value : Option Scalar)
  | intList (value : Option (List UInt64))
  | floatList (value : Option (List UInt32))
  | boolList (value : Option (List Bool))
  | other

/-- What the structures of GE measure. In a descriptor, and in the head of a vector, so many
bytes are used; the elements of a vector begin behind its head. -/
structure GeSizes where
  compileTimeTensorDesc : Nat
  descUsed : Nat
  descUsed_pos : 0 < descUsed
  descUsed_le : descUsed ≤ compileTimeTensorDesc
  continuousVector : Nat
  vectorHead : Nat
  vectorElements : Nat
  vectorHead_pos : 0 < vectorHead
  vectorHead_le : vectorHead ≤ continuousVector
  vectorHead_le_elements : vectorHead ≤ vectorElements

/-! ## The buffer -/

/-- What is written: the two fields of an anchor, a descriptor, a number, bytes and the head of
a vector with so many elements. -/
inductive Cell where
  | anchor (instanceStart instantiationNum : UInt32)
  | desc (dataType : DataType) (originFormat storageFormat : UInt32)
  | number (n : Nat)
  | bytes (data : List Byte)
  | vector (size : Nat)
deriving DecidableEq

/-- `MAX_OP_ARG_NUM` -/
def maxOpArgNum : Nat := 1024

/-- `ATTR_CAPACITY` -/
def attrCapacity : Nat := 32 * 1024

/-- `MAX_ATTR_STRING_SIZE` -/
def maxAttrStringSize : Nat := 1024

/-- `sizeof(ComputeNodeInfo)` -/
def computeNodeInfo : Nat := 88

/-- `offsetof(ComputeNodeInfo, place_holder)`, where `anchorInfo_` is. -/
def anchorInfo : Nat := 80

/-- `sizeof(AnchorInstanceInfo)` -/
def anchorInstanceInfo : Nat := 48

/-- `sizeof(RuntimeAttrsDef)` -/
def runtimeAttrsDef : Nat := 48

/-- `computeNodeInfoSize_`, of `BuildComputeNodeInfo`. -/
def computeNodeInfoSize (abi : GeSizes) : Nat :=
  computeNodeInfo + anchorInstanceInfo * maxOpArgNum + abi.compileTimeTensorDesc * maxOpArgNum +
    runtimeAttrsDef + attrCapacity

/-- The used part of an anchor. -/
def anchorAt (base idx : Nat) : Extent := ⟨base + anchorInstanceInfo * idx, 8⟩

/-- The used part of a descriptor. -/
def descAt (abi : GeSizes) (base slot : Nat) : Extent :=
  ⟨base + abi.compileTimeTensorDesc * slot, abi.descUsed⟩

/-- An entry of the table of attributes. -/
def offsetAt (attrDef idx : Nat) : Extent := ⟨attrDef + runtimeAttrsDef + 8 * idx, 8⟩

/-- `KernelContextHolder` and the fields of its `ComputeNodeInfo`. -/
structure Holder where
  written : WriteLog Cell
  opInArg : Nat → Nat
  nodeType : String
  nodeName : String
  irInputsNum : Nat
  inputsNum : Nat
  outputsNum : Nat
  irOutputsNum : Nat
  attrSize : Nat
  inputNum : Nat
  outputNum : Nat
  compileDesc : Nat
  attrDef : Nat
  attrDataStart : Nat
  outputAnchorInfo : Nat

/-- What is read of an `aclnnStatus`. -/
inductive Status where
  | success
  | errInner
deriving DecidableEq

/-- `VisitBy`: the first error ends it. -/
def visitBy {σ : Type} (func : Nat → OpArg → σ → Status × σ) : Nat → List OpArg → σ → Status × σ
  | _, [], s => (.success, s)
  | idx, arg :: args, s =>
    match func idx arg s with
    | (.success, s) => visitBy func (idx + 1) args s
    | (.errInner, s) => (.errInner, s)

namespace Holder

def write (h : Holder) (x : Extent) (cell : Cell) : Holder :=
  { h with written := h.written ++ [(x, cell)] }

/-- An anchor's two fields. -/
def setAnchor (h : Holder) (base idx start num : Nat) : Holder :=
  h.write (anchorAt base idx) (.anchor start.toUInt32 num.toUInt32)

/-- A tensor in a slot: its descriptor and its value. -/
def setSlot (abi : GeSizes) (h : Holder) (slot : Nat) (t : Tensor) : Holder :=
  { h.write (descAt abi h.compileDesc slot) (.desc t.dataType t.originalFormat t.storageFormat) with
    opInArg := Function.update h.opInArg slot t.tensor }

/-! ## Inputs -/

/-- `UpdateInputArg` for a tensor. -/
def updateInputTensor (abi : GeSizes) (idx : Nat) : Option Tensor → Holder → Status × Holder
  | none, h => (.success, h.setAnchor anchorInfo idx h.inputNum 0)
  | some t, h =>
    if maxOpArgNum ≤ h.inputNum then (.errInner, h)
    else
      let h := (h.setAnchor anchorInfo idx h.inputNum 1).setSlot abi h.inputNum t
      (.success, { h with inputNum := h.inputNum + 1 })

/-- The loop over a list. -/
def updateInputTensors (abi : GeSizes) (idx : Nat) : List (Option Tensor) → Holder → Status × Holder
  | [], h => (.success, h)
  | t :: ts, h =>
    match updateInputTensor abi idx t h with
    | (.success, h) => updateInputTensors abi idx ts h
    | (.errInner, h) => (.errInner, h)

/-- `UpdateInputArg` for a list. -/
def updateInputList (abi : GeSizes) (idx : Nat) :
    Option (List (Option Tensor)) → Holder → Status × Holder
  | none, h | some [], h => (.success, h.setAnchor anchorInfo idx h.inputNum 0)
  | some tensorList, h =>
    let start := h.inputNum
    match updateInputTensors abi idx tensorList h with
    | (.success, h) => (.success, h.setAnchor anchorInfo idx start (h.inputNum - start))
    | (.errInner, h) => (.errInner, h)

/-- `UpdateInputArg` -/
def updateInputArg (abi : GeSizes) (idx : Nat) : OpArg → Holder → Status × Holder
  | .aclTensor tensor, h => updateInputTensor abi idx tensor h
  | .aclTensorList tensorList, h => updateInputList abi idx tensorList h
  | _, h => (.errInner, h)

/-! ## Outputs -/

/-- `UpdateOutputArg` for a tensor. -/
def updateOutputTensor (abi : GeSizes) : Option Tensor → Holder → Status × Holder
  | none, h => (.success, h)
  | some t, h =>
    if maxOpArgNum ≤ h.inputNum + h.outputNum then (.errInner, h)
    else
      let h := h.setSlot abi (h.inputNum + h.outputNum) t
      (.success, { h with outputNum := h.outputNum + 1 })

/-- `UpdateOutputArg` for a list. -/
def updateOutputList (abi : GeSizes) : List (Option Tensor) → Holder → Status × Holder
  | [], h => (.success, h)
  | t :: ts, h =>
    match updateOutputTensor abi t h with
    | (.success, h) => updateOutputList abi ts h
    | (.errInner, h) => (.errInner, h)

/-- `UpdateOutputArg` -/
def updateOutputArg (abi : GeSizes) (_ : Nat) : OpArg → Holder → Status × Holder
  | .aclTensor tensor, h => updateOutputTensor abi tensor h
  | .aclTensorList tensorList, h => updateOutputList abi (tensorList.getD []) h
  | _, h => (.errInner, h)

/-- `UpdateOutputArgIr` for a tensor. -/
def updateOutputTensorIr (idx : Nat) : Option Tensor → Nat × Holder → Nat × Holder
  | none, (seq, h) => (seq, h.setAnchor h.outputAnchorInfo idx seq 0)
  | some _, (seq, h) => (seq + 1, h.setAnchor h.outputAnchorInfo idx seq 1)

/-- `UpdateOutputArgIr` for a list. -/
def updateOutputListIr (idx : Nat) : Option (List (Option Tensor)) → Nat × Holder → Nat × Holder
  | none, (seq, h) | some [], (seq, h) => (seq, h.setAnchor h.outputAnchorInfo idx seq 0)
  | some tensorList, (start, h) =>
    let (seq, h) := tensorList.foldl (fun s t => updateOutputTensorIr idx t s) (start, h)
    (seq, h.setAnchor h.outputAnchorInfo idx start (seq - start))

/-- `UpdateOutputArgIr` -/
def updateOutputArgIr (idx : Nat) : OpArg → Nat × Holder → Nat × Holder
  | .aclTensor tensor, s => updateOutputTensorIr idx tensor s
  | .aclTensorList tensorList, s => updateOutputListIr idx tensorList s
  | _, s => s

/-- The loop of `UpdateOutputArgIr` over all outputs. -/
def updateOutputArgsIr : Nat → List OpArg → Nat × Holder → Nat × Holder
  | _, [], s => s
  | idx, arg :: args, s => updateOutputArgsIr (idx + 1) args (updateOutputArgIr idx arg s)

end Holder

/-! ## Attributes -/

/-- `memcpy_s` refuses no bytes and too many. -/
def copies (size : Nat) : Bool := 0 < size ∧ size ≤ 0x7fffffff

/-- Bytes at an offset, if they are copied; that they are not is only logged. -/
def copied (off : Nat) (data : List Byte) : WriteLog Cell :=
  if copies data.length then [(⟨off, data.length⟩, .bytes data)] else []

/-- The `UpdateAttrArg` of the arrays: what is written from `attrPtr` on and how far it is moved.
A null array and one without elements have an empty vector. -/
def updateArray {α : Type} (abi : GeSizes) (attrPtr : Nat) (value : Option (List α))
    (encode : α → List Byte) : WriteLog Cell × Nat :=
  match value with
  | none | some [] => ([(⟨attrPtr, abi.vectorHead⟩, .vector 0)], abi.continuousVector)
  | some value =>
    let data := value.flatMap encode
    ((⟨attrPtr, abi.vectorHead⟩, .vector value.length) ::
      copied (attrPtr + abi.vectorElements) data,
      abi.vectorElements + data.length)

/-- A `bool` in memory. -/
def boolByte (x : Bool) : List Byte := [if x then 1 else 0]

/-- `AlignSize(size, sizeof(size_t))` -/
def alignSize (size : Nat) : Nat := (size + 7) / 8 * 8

/-- The `UpdateAttrArg` for the value of an attribute: what is written from `attrPtr` on, and
how far `attrPtr` is moved; nothing if the attribute is refused. -/
def updateAttrValue (abi : GeSizes) (attrPtr : Nat) : OpArg → Option (WriteLog Cell × Nat)
  | .dataType value => some ([(⟨attrPtr, 8⟩, .bytes (le 8 value.code.toNat))], 8)
  | .int ivalue => some ([(⟨attrPtr, 8⟩, .bytes (le8 ivalue))], 8)
  | .float fvalue => some ([(⟨attrPtr, 8⟩, .bytes (le 8 fvalue.toNat))], 8)
  | .double dvalue => some ([(⟨attrPtr, 8⟩, .bytes (le8 dvalue))], 8)
  | .string none => some ([(⟨attrPtr, 1⟩, .bytes [0])], 8)
  | .string (some value) =>
    if maxAttrStringSize ≤ value.length then none
    else some (copied attrPtr (value ++ [0]), alignSize (value.length + 1))
  | .aclScalar none => some ([(⟨attrPtr, 8⟩, .bytes (le 8 0))], 8)
  | .aclScalar (some value) => some (copied attrPtr value.data, value.data.length)
  | .intList value => some (updateArray abi attrPtr value le8)
  | .floatList value => some (updateArray abi attrPtr value fun x => le 4 x.toNat)
  | .boolList value => some (updateArray abi attrPtr value boolByte)
  | _ => none

/-- `UpdateAttrArg`; the first of the pair is `attrPtr`. -/
def updateAttrArg (abi : GeSizes) (idx : Nat) (arg : OpArg) (s : Nat × Holder) :
    Status × (Nat × Holder) :=
  let (attrPtr, h) := s
  if attrCapacity ≤ attrPtr - h.attrDataStart then (.errInner, s)
  else
    let h := h.write (offsetAt h.attrDef idx) (.number (attrPtr - h.attrDef))
    match updateAttrValue abi attrPtr arg with
    | none => (.errInner, (attrPtr, h))
    | some (ws, len) => (.success, (attrPtr + len, { h with written := h.written ++ ws }))

/-! ## The whole -/

/-- What the context is made for. -/
structure Call where
  opType : String
  input : List OpArg
  output : List OpArg
  attr : List OpArg

namespace Holder

/-- `ResetComputeNodeInfo` and `UpdateCompileDescOffset`. -/
def reset (h : Holder) (call : Call) : Holder :=
  { h with
    nodeType := call.opType
    nodeName := call.opType
    irInputsNum := call.input.length
    attrSize := 0
    irOutputsNum := call.output.length
    inputNum := 0
    outputNum := 0
    compileDesc := anchorInfo + anchorInstanceInfo * call.input.length }

/-- `FinalizeComputeNodeInfo` -/
def finalize (abi : GeSizes) (h : Holder) (attrNum : Nat) : Holder :=
  let attrDef := h.compileDesc + abi.compileTimeTensorDesc * (h.inputNum + h.outputNum)
  { h.write ⟨attrDef, 8⟩ (.number attrNum) with
    inputsNum := h.inputNum
    outputsNum := h.outputNum
    attrDef := attrDef
    attrDataStart := attrDef + runtimeAttrsDef + 8 * attrNum }

/-- The end of `UpdateComputeNodeInfo`. -/
def finish (h : Holder) (attrPtr : Nat) (output : List OpArg) : Holder :=
  let h := { h with attrSize := attrPtr - h.attrDef, outputAnchorInfo := attrPtr }
  (updateOutputArgsIr 0 output (0, h)).2

/-- `UpdateComputeNodeInfo` -/
def updateComputeNodeInfo (abi : GeSizes) (h : Holder) (call : Call) : Status × Holder :=
  match visitBy (updateInputArg abi) 0 call.input (h.reset call) with
  | (.errInner, h) => (.errInner, h)
  | (.success, h) =>
    match visitBy (updateOutputArg abi) 0 call.output h with
    | (.errInner, h) => (.errInner, h)
    | (.success, h) =>
      let h := h.finalize abi call.attr.length
      match visitBy (updateAttrArg abi) 0 call.attr (h.attrDataStart, h) with
      | (.errInner, _, h) => (.errInner, h)
      | (.success, attrPtr, h) => (.success, h.finish attrPtr call.output)

end Holder

end OpBase.ContextHolder
