import OpBase.Indv.Tensors

/-!
# Filling the slots of an executor

`individual_op/executor/indv_executor_ext.cpp` and `indv_executor_tensor.cpp`: every launch
begins with cleared slots (`NnopbaseExecutorClear`), and then adds one argument for each IR
parameter. A parameter that is not dynamic has a slot whether its tensor is null or not. A
list takes as many slots as it has elements, none if it is null or empty: such a call
returns before it touches anything, and leaves in the parameter what an earlier launch
recorded.

A refused call and an access outside the slots are `none`. The conversion of scalars is left
out; the counters of the source are 32-bit integers whose overflow it refuses.
-/

namespace OpBase.Indv

open OpBase.Lib

/-- An `aclTensor`. `data` is the `CalcShapeBytes(Numel())` bytes from `GetData()` on. -/
@[ext]
structure AclTensor where
  dataType : DataType
  storageFormat : UInt32
  viewShape : Shape
  storageShape : Shape
  addr : UInt64
  data : List Byte
  onDevice : Bool
deriving DecidableEq

/-- `NnopbaseFormatCheckOption`. -/
inductive FormatCheckOption where
  | default | strict
deriving DecidableEq

/-- `FormatsLikeND`: NCL, NCDHW, DHWCN, NHWC and NCHW. -/
def formatsLikeND : List UInt32 := [47, 30, 31, 1, 0]

/-- `NnopbaseNeedSetFormat`. -/
def needSetFormat (format : UInt32) (formatCheckOption : FormatCheckOption) : Bool :=
  formatCheckOption = .default ∧ format ∈ formatsLikeND

/-- What `NnopbaseSaveTensor` makes of a tensor. -/
def AclTensor.saved (formatCheckOption : FormatCheckOption) (t : AclTensor) : GertTensor where
  dataType := t.dataType
  storageFormat :=
    if needSetFormat t.storageFormat formatCheckOption then formatND else t.storageFormat
  storageShape := t.viewShape
  addr := t.addr
  data := t.data
  onDevice := t.onDevice

/-- What is given for an IR parameter. -/
inductive Arg where
  | tensor (tensor : Option AclTensor)
  | tensorList (tensorList : Option (List (Option AclTensor)))
deriving DecidableEq

/-- The slots an argument takes. -/
def Arg.slots : Arg → List (Option AclTensor)
  | tensor t => [t]
  | tensorList list => list.getD []

/-- `NNOPBASE_DYNAMIC_PARAM_DEF_NUM`. -/
def dynamicParamDefNum : Nat := 256

/-- `NNOPBASE_NORM_DEF_IO_NUMS`. -/
def normDefIoNums : Nat := 20

/-- An argument a parameter admits. -/
def ParamType.Admits : ParamType → Arg → Prop
  | .dynamic, .tensorList tensorList => (tensorList.getD []).length ≤ dynamicParamDefNum
  | .dynamic, .tensor _ => False
  | _, .tensor _ => True
  | _, .tensorList _ => False

theorem ParamType.eq_dynamic_of_admits {p : ParamType}
    {tensorList : Option (List (Option AclTensor))} (h : p.Admits (.tensorList tensorList)) :
    p = .dynamic := by
  cases p with
  | dynamic => rfl
  | optional => exact h.elim
  | required => exact h.elim

theorem ParamType.ne_dynamic_of_admits {p : ParamType} {tensor : Option AclTensor}
    (h : p.Admits (.tensor tensor)) : p ≠ .dynamic := by
  rintro rfl
  exact h

namespace Tensors

/-! ## The slots of an executor that is new or cleared -/

/-- A slot of a new vector. -/
def blankSlot : ExtTensor :=
  ⟨⟨⟨0⟩, 0, ⟨[], Nat.zero_le _⟩, 0, [], true⟩, true, false, false, false⟩

/-- `NnopbaseExecutorClearExtTensors`. -/
def clearExtTensors (ts : Tensors) : Tensors :=
  if ts.hasDynamic then
    { ts with
      extTensors := ts.extTensors.map fun t =>
        { t with isNull := true, isRequired := false, valueDepend := false }
      usedNum := 0, num := ts.nonDynamicCnt, expectIndex := 0, dynamicCnt := 0
      hostInputNum := 0, hostInputSize := 0 }
  else
    { ts with
      extTensors := ts.extTensors.map fun t => { t with isNull := true, valueDepend := false }
      expectIndex := 0, dynamicCnt := 0, hostInputNum := 0, hostInputSize := 0 }

/-- `NnopbaseExecutorInitIoTensor` and the loops of `NnopbaseExecutorInitIoCaches`, in front
of the clearing. -/
def initIoTensor (paramDesc : List ParamType) : Tensors :=
  if .dynamic ∈ paramDesc then
    { extTensors :=
        (paramDesc.map fun p => { blankSlot with isOptional := p = .optional }) ++
          List.replicate normDefIoNums blankSlot
      instances := paramDesc.map fun p => ⟨p, if p = .dynamic then 0 else 1, 0⟩
      usedNum := 0, num := paramDesc.countP (· ≠ .dynamic), expectIndex := 0, dynamicCnt := 0
      hostInputNum := 0, hostInputSize := 0 }
  else
    { extTensors := paramDesc.map fun p =>
        { blankSlot with isRequired := p = .required, isOptional := p = .optional }
      instances := paramDesc.mapIdx fun i p => ⟨p, 1, i⟩
      usedNum := paramDesc.length, num := paramDesc.countP (· ≠ .dynamic), expectIndex := 0
      dynamicCnt := 0, hostInputNum := 0, hostInputSize := 0 }

/-- `NnopbaseExecutorInitIoCaches`. -/
def initIoCaches (paramDesc : List ParamType) : Tensors :=
  clearExtTensors (initIoTensor paramDesc)

/-! ## Adding an argument -/

/-- An access to a slot. -/
def modifySlot (i : Nat) (f : ExtTensor → ExtTensor) (ts : Tensors) : Option Tensors :=
  if i < ts.extTensors.length then some { ts with extTensors := ts.extTensors.modify i f }
  else none

def modifyInstance (i : Nat) (f : ParamInstance → ParamInstance) (ts : Tensors) : Tensors :=
  { ts with instances := ts.instances.modify i f }

/-- `NnopbaseExecutorSaveTensor`; `hostInputNum` is a `uint16_t`. -/
def saveTensor (formatCheckOption : FormatCheckOption) (i : Nat) (t : AclTensor)
    (ts : Tensors) : Option Tensors := do
  let ts ← ts.modifySlot i fun slot =>
    { slot with rt2Tensor := t.saved formatCheckOption, isNull := false }
  if t.onDevice then some ts
  else
    some { ts with
      hostInputNum := (ts.hostInputNum + 1) % 2 ^ 16
      hostInputSize := ts.hostInputSize + t.data.length }

/-- The parameters from the expected index up to this one that are not dynamic. -/
def skipped (ts : Tensors) (index : Nat) : Nat :=
  ((ts.instances.take index).drop ts.expectIndex).countP (·.cfgNum ≠ .dynamic)

/-- `NnopbaseExecutorUpdateTensorsIndex`. -/
def updateTensorsIndex (index : Nat) (ts : Tensors) : Option Tensors :=
  if index < ts.expectIndex then none
  else
    match ts.instances[index]? with
    | none => none
    | some p =>
      if ts.hasDynamic then
        let startIndex := ts.usedNum + ts.skipped index
        { ts.modifyInstance index (fun p => { p with startIndex }) with
          usedNum := startIndex + 1
          expectIndex := index + 1 }.modifySlot startIndex fun slot =>
            { slot with
              isRequired := p.cfgNum ≠ ParamType.optional
              isOptional := p.cfgNum = ParamType.optional
              valueDepend := false }
      else some { ts with expectIndex := index + 1 }

/-- `NnopbaseExecutorAddTensor`. -/
def executorAddTensor (formatCheckOption : FormatCheckOption) (tensor : Option AclTensor)
    (index : Nat) (ts : Tensors) : Option Tensors :=
  match tensor with
  | some t => do
    let p ← ts.instances[index]?
    let ts ← ts.saveTensor formatCheckOption p.startIndex t
    some (ts.modifyInstance index fun p => { p with num := 1 })
  | none => some (ts.modifyInstance index fun p => { p with num := 0 })

/-- `NnopbaseExecutorExtendIoCaches`. -/
def extendIoCaches (ts : Tensors) : Tensors :=
  { ts with
    extTensors := ts.extTensors ++ List.replicate (2 * ts.num - ts.extTensors.length) blankSlot }

/-- An element of a list; every one is first taken for not required. -/
def saveElement (formatCheckOption : FormatCheckOption) (ts : Tensors)
    (e : Option AclTensor × Nat) : Option Tensors := do
  let ts ← match e.1 with
    | some t => ts.saveTensor formatCheckOption e.2 t
    | none => some ts
  ts.modifySlot e.2 fun slot => { slot with isRequired := false }

/-- `NnopbaseCheckAndSaveTensor`. -/
def checkAndSaveTensor (formatCheckOption : FormatCheckOption)
    (tensorList : List (Option AclTensor)) (startIndex : Nat) (ts : Tensors) : Option Tensors :=
  (tensorList.zipIdx startIndex).foldlM (saveElement formatCheckOption) ts

/-- The counts with the elements of a list. -/
def countElements (startIndex size index : Nat) (ts : Tensors) : Tensors :=
  { ts.modifyInstance index (fun p => { p with startIndex, num := size }) with
    num := ts.num + size
    usedNum := startIndex + size
    dynamicCnt := ts.dynamicCnt + size }

/-- `if (num >= arrayLen)`, there are twice as many slots as are counted. -/
def makeRoom (ts : Tensors) : Tensors :=
  if ts.extTensors.length ≤ ts.num then ts.extendIoCaches else ts

/-- `NnopbaseExecutorAddDynamicTensors` behind its checks. -/
def addElements (formatCheckOption : FormatCheckOption) (tensorList : List (Option AclTensor))
    (index : Nat) (ts : Tensors) : Option Tensors := do
  let startIndex := ts.usedNum + ts.skipped index
  let saved ← (ts.countElements startIndex tensorList.length index).makeRoom.checkAndSaveTensor
    formatCheckOption tensorList startIndex
  { saved with expectIndex := index + 1 }.modifySlot startIndex
    fun slot => { slot with isRequired := true }

/-- `NnopbaseExecutorAddDynamicTensors`. -/
def executorAddDynamicTensors (formatCheckOption : FormatCheckOption)
    (tensorList : Option (List (Option AclTensor))) (index : Nat) (ts : Tensors) :
    Option Tensors :=
  let elements := tensorList.getD []
  if elements = [] then some ts
  else if index < ts.expectIndex ∨ ts.instances.length ≤ index ∨
      dynamicParamDefNum < elements.length then none
  else ts.addElements formatCheckOption elements index

/-- `NnopbaseAddInput`, `NnopbaseAddDynamicInput` and the same for outputs. -/
def addArg (formatCheckOption : FormatCheckOption) (ts : Tensors) (a : Arg × Nat) :
    Option Tensors :=
  match a.1 with
  | .tensor tensor => do
    let ts ← ts.updateTensorsIndex a.2
    ts.executorAddTensor formatCheckOption tensor a.2
  | .tensorList tensorList => ts.executorAddDynamicTensors formatCheckOption tensorList a.2

/-- One argument for each IR parameter, in their order. -/
def addArgs (ts : Tensors) (formatCheckOption : FormatCheckOption) (args : List Arg) :
    Option Tensors :=
  args.zipIdx.foldlM (addArg formatCheckOption) ts

/-- The states of an executor for a signature between two launches. -/
inductive Reached (paramDesc : List ParamType) : Tensors → Prop where
  | init : Reached paramDesc (initIoCaches paramDesc)
  | launch {ts ts' : Tensors} {formatCheckOption : FormatCheckOption} {args : List Arg}
      (before : Reached paramDesc ts) (admits : List.Forall₂ ParamType.Admits paramDesc args)
      (added : ts.clearExtTensors.addArgs formatCheckOption args = some ts') :
      Reached paramDesc ts'

end Tensors

end OpBase.Indv
