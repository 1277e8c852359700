import OpBase.Indv.ArgsKey

/-!
# The tensors of an executor

`individual_op/utils/indv_base.h`: an executor keeps its inputs, and likewise its outputs,
in one flat array of slots. A parameter of the IR signature has one slot or, if it is
dynamic, as many as its list has elements; `startIndex` says where they begin.

The counts that depend on the signature only (`requiredCnt`, `nonDynamicCnt`, `dynamicNum`,
`hasDynamic`) are computed from it here; `NnopbaseExecutorInitIoTensor` stores them once.
-/

namespace OpBase.Indv

open OpBase.Lib

/-- `cfgNum`: what the IR says of a parameter. -/
inductive ParamType where
  | optional | required | dynamic
deriving DecidableEq

/-- `NnopbaseParamInstance`; `num` is the number of its slots. -/
@[ext]
structure ParamInstance where
  cfgNum : ParamType
  num : Nat
  startIndex : Nat
deriving DecidableEq

/-- `gert::Tensor`. `data` is the `GetSize()` bytes from `GetAddr()` on. -/
@[ext]
structure GertTensor where
  dataType : DataType
  storageFormat : UInt32
  storageShape : Shape
  addr : UInt64
  data : List Byte
  onDevice : Bool
deriving DecidableEq

/-- `NnopbaseTensor`, a slot. In a slot that is null the other fields are what an earlier
call left. -/
@[ext]
structure ExtTensor where
  rt2Tensor : GertTensor
  isNull : Bool
  isRequired : Bool
  isOptional : Bool
  valueDepend : Bool
deriving DecidableEq

/-- `NnopbaseTensors`; `arrayLen` is the length of `extTensors`. -/
@[ext]
structure Tensors where
  extTensors : List ExtTensor
  instances : List ParamInstance
  usedNum : Nat
  num : Nat
  expectIndex : Nat
  dynamicCnt : Nat
  hostInputNum : Nat
  hostInputSize : Nat
deriving DecidableEq

namespace Tensors

/-- The IR signature. -/
def signature (t : Tensors) : List ParamType := t.instances.map ParamInstance.cfgNum

def nonDynamicCnt (t : Tensors) : Nat := t.signature.countP (· ≠ .dynamic)

def requiredCnt (t : Tensors) : Nat := t.signature.count .required

def dynamicNum (t : Tensors) : Nat := t.signature.count .dynamic

def hasDynamic (t : Tensors) : Bool := t.nonDynamicCnt < t.instances.length

/-- The slots in use are there, and so is the one a parameter begins with. -/
structure SlotsExist (t : Tensors) : Prop where
  used : t.nonDynamicCnt + t.dynamicCnt ≤ t.extTensors.length
  starts : ∀ p ∈ t.instances, p.startIndex < t.extTensors.length

end Tensors

end OpBase.Indv
