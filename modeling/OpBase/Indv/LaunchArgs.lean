import OpBase.Indv.Tensors

/-!
# The arguments of a launch

`individual_op/executor/indv_args.cpp`: `NnopbaseExecutorPrepareInputsParamsExt` and the same
for outputs walk over the parameters and, next to them, over the slots. A slot that is null
gets an empty pointer. A parameter that is not dynamic gets the address of its slot, or, if
that is an input in host memory, the address of a copy. A dynamic parameter gets the address
of a block: where the addresses of its tensors begin, their shapes, the addresses.

The pointers lie in one region of the arguments, copies and blocks (`hostInputData`) in
another; both are written from the front. A read outside the slots is `none`. `memory` is
what the second region has before, and still has in the gaps that a copy leaves.
-/

namespace OpBase.Indv

open OpBase.Lib

/-- A pointer among the arguments. For the address of a tensor, or of its copy, `slot` is the
one whose `argsOffset` is set to this place. -/
inductive Pointer where
  | null
  | tensor (slot : Nat) (addr : UInt64)
  | copy (slot : Nat) (offset : Nat)
  | block (offset : Nat)
deriving DecidableEq

/-- `NnopbaseExecutorArgsAddr`: what is written so far. An entry of `hostInputInfo` says
which pointer it is about and where it points to; `stored` is the end of the last byte
stored among `hostInputData`. -/
@[ext]
structure ArgsAddr where
  addr : List Pointer
  hostInputData : List Byte
  hostInputInfo : List (Nat × Nat)
  stored : Nat
deriving DecidableEq

namespace ArgsAddr

/-- `*addr = …; addr++`. -/
def push (a : ArgsAddr) (p : Pointer) : ArgsAddr := { a with addr := a.addr ++ [p] }

/-- Rounded up to whole words. -/
def alignedSize (size : Nat) : Nat := (size + 7) / 8 * 8

/-- `NnopbaseExecutorEncodeHostInput`. -/
def encodeHostInput (memory : Nat → Byte) (slot : Nat) (tensor : GertTensor) (a : ArgsAddr) :
    ArgsAddr :=
  let offset := a.hostInputData.length
  let size := tensor.data.length
  let gap := (List.range (alignedSize size - size)).map fun k => memory (offset + size + k)
  { addr := a.addr ++ [.copy slot offset]
    hostInputData := a.hostInputData ++ (tensor.data ++ gap)
    hostInputInfo := a.hostInputInfo ++ [(a.addr.length, offset)]
    stored := if size = 0 then a.stored else offset + size }

end ArgsAddr

/-- The shape of a tensor of a list: the number of dimensions, a one, the dimensions. -/
def shapeEntry (t : GertTensor) : List Byte :=
  le 4 t.storageShape.val.length ++ le 4 1 ++ dimBytes t.storageShape.val

/-- What `NnopbaseExecutorEncodeDynamicTensors` writes for a list. -/
def dynamicBlock (tensors : List GertTensor) : List Byte :=
  let shapes := tensors.flatMap shapeEntry
  le8 (8 + shapes.length).toUInt64 ++ shapes ++ tensors.flatMap fun t => le8 t.addr

namespace Tensors

/-- The slots `extTensors[startIndex + i]` that a parameter says it has. -/
def ownSlots (ts : Tensors) (p : ParamInstance) : Option (List ExtTensor) :=
  if p.num = 0 ∨ p.startIndex + p.num ≤ ts.extTensors.length then
    some ((ts.extTensors.drop p.startIndex).take p.num)
  else none

/-- `NnopbaseExecutorEncodeDynamicTensors`. -/
def encodeDynamicTensors (ts : Tensors) (p : ParamInstance) (a : ArgsAddr) : Option ArgsAddr := do
  let slots ← ts.ownSlots p
  let offset := a.hostInputData.length
  let block := dynamicBlock (slots.map ExtTensor.rt2Tensor)
  some
    { addr := a.addr ++ [.block offset]
      hostInputData := a.hostInputData ++ block
      hostInputInfo := a.hostInputInfo ++ [(a.addr.length, offset)]
      stored := offset + block.length }

/-- `NnopbaseExecutorPrepareNullTensors`. -/
def prepareNullTensors (isStaticShape : Bool) (a : ArgsAddr) : ArgsAddr :=
  if isStaticShape then a else a.push .null

/-- The body of the loop over the parameters; `j` is the slot it has come to. -/
def prepareParam (ts : Tensors) (memory : Nat → Byte) (isInput isStaticShape : Bool)
    (state : Nat × ArgsAddr) (p : ParamInstance) : Option (Nat × ArgsAddr) :=
  let (j, a) := state
  match ts.extTensors[j]? with
  | none => none
  | some slot =>
    if slot.isNull then some (j + 1, prepareNullTensors isStaticShape a)
    else if p.cfgNum ≠ .dynamic then
      if isInput && !slot.rt2Tensor.onDevice then
        some (j + 1, a.encodeHostInput memory j slot.rt2Tensor)
      else some (j + 1, a.push (.tensor j slot.rt2Tensor.addr))
    else do
      let a ← ts.encodeDynamicTensors p a
      some (j + p.num, a)

/-- `NnopbaseExecutorPrepareInputsParamsExt` and `NnopbaseExecutorPrepareOutputsParamsExt`. -/
def prepareParamsExt (ts : Tensors) (memory : Nat → Byte) (isInput isStaticShape : Bool)
    (a : ArgsAddr) : Option ArgsAddr := do
  let last ← ts.instances.foldlM (ts.prepareParam memory isInput isStaticShape) (0, a)
  some last.2

/-- Inputs first, outputs behind them. -/
def prepareIoParamsExt (inputs outputs : Tensors) (memory : Nat → Byte) (isStaticShape : Bool)
    (a : ArgsAddr) : Option ArgsAddr := do
  let a ← inputs.prepareParamsExt memory true isStaticShape a
  outputs.prepareParamsExt memory false isStaticShape a

end Tensors

end OpBase.Indv
