import OpBase.Indv.LaunchArgs
import OpBase.Indv.SlotsFilled
import OpBase.Lib.TwoStreams

/-!
# The exception-dump info of a launch

`individual_op/executor/indv_args.cpp`: `dfxInfo` is an array of 64-bit words. In front lie
words for the communication handles, which are filled later. Then comes the byte size of every
launch argument (inputs, outputs, the shapes of shape-dependent outputs, workspaces), and
behind these, for each tensor that is no element of a list, the number of its dimensions and
the dimensions. `NnopbaseExecutorPrepareDfxInfo` counts the words, looking each parameter up
by its `startIndex`; `NnopbaseExecutorSetDfxInfo` writes them, going over the slots with an
index of its own.

The number of elements of a shape is computed outside, as a number below zero if it does not
fit or a dimension is negative. Reading outside the slots is `none`.
-/

namespace OpBase.Indv

open OpBase.Lib

/-- What the info is made from besides the tensors. `hcomHandle` is the number of handles,
`outPutShapeMap` has the outputs whose shape is refreshed after the launch. -/
structure DfxLaunch where
  hcomHandle : Nat
  outPutShapeSize : UInt64
  outPutShapeMap : List Nat
  workspacesSizes : List UInt64
  isPrintEnable : Bool
  isAssertEnable : Bool
  isTimeStampEnable : Bool
  debugBufSize : UInt64
  getShapeSize : Shape → Int

/-- `NNOPBASE_BLOCK_SIZE`. -/
def blockSize : UInt64 := 32

/-- `AlignSize` to a power of two. -/
def alignSize (sizeToAlign powerOfTwo : UInt64) : UInt64 :=
  (sizeToAlign + powerOfTwo - 1) &&& ~~~(powerOfTwo - 1)

namespace DfxLaunch

/-! ## Counting -/

/-- The workspaces; without any there is a place for one. -/
def workspaceNum (l : DfxLaunch) : Nat :=
  if l.workspacesSizes.length = 0 then 1 else l.workspacesSizes.length

/-- The shape of this output, or of any input, is written. -/
def showsShape (l : DfxLaunch) (isInput : Bool) (i : Nat) : Bool :=
  isInput || i ∉ l.outPutShapeMap

/-- `NnopbaseExecutorGetIoShapeInfoSize`. -/
def getIoShapeInfoSize (l : DfxLaunch) (tensor : GertTensor) (space : UInt32) : UInt32 :=
  if l.getShapeSize tensor.storageShape ≠ 0 then
    let dimNum := tensor.storageShape.val.length
    if dimNum = 0 then space + 2 else (space.toNat + (dimNum + 1)).toUInt32
  else space

/-- The body of the loops of `NnopbaseExecutorGetInputShapeInfoSize` and
`NnopbaseExecutorGetOutputShapeInfoSize`. -/
def getShapeInfoSize (l : DfxLaunch) (isInput : Bool) (ts : Tensors) (space : UInt32)
    (x : ParamInstance × Nat) : Option UInt32 :=
  if x.1.cfgNum ≠ .dynamic then
    match ts.extTensors[x.1.startIndex]? with
    | none => none
    | some slot =>
      if !slot.isNull && l.showsShape isInput x.2 then
        some (l.getIoShapeInfoSize slot.rt2Tensor space)
      else some space
  else some space

def getIoShapeSizes (l : DfxLaunch) (isInput : Bool) (ts : Tensors) (space : UInt32) :
    Option UInt32 :=
  ts.instances.zipIdx.foldlM (l.getShapeInfoSize isInput ts) space

/-- The words in front of those for shapes. -/
def oomNum (l : DfxLaunch) (inputs outputs : Tensors) : UInt32 :=
  let oomNum :=
    (inputs.instances.length + outputs.instances.length + l.workspaceNum + l.hcomHandle).toUInt32
  if l.outPutShapeSize ≠ 0 then oomNum + 1 else oomNum

/-! ## Writing -/

/-- `NnopbasePrepareDimInfo`. -/
def prepareDimInfo (l : DfxLaunch) (s : Streams UInt64) (shape : Shape) : Streams UInt64 :=
  if 0 < l.getShapeSize shape then
    let dimNum := shape.val.length
    if dimNum = 0 then s.pushBack [1, 1]
    else s.pushBack (dimNum.toUInt64 :: shape.val.map Int64.toUInt64)
  else s

/-- The bytes of the block of a list. -/
def dynamicSize (slots : List ExtTensor) : UInt64 :=
  slots.foldl (fun size slot =>
      size + slot.rt2Tensor.storageShape.val.length.toUInt64 * 8)
    (8 + 16 * slots.length.toUInt64)

/-- The body of the loop of `NnopbaseExecutorPrepareIOSize`; `j` is the slot it has come to. -/
def prepareParamSize (l : DfxLaunch) (isInput : Bool) (ts : Tensors)
    (state : Nat × Streams UInt64) (x : ParamInstance × Nat) :
    Option (Nat × Streams UInt64) :=
  let (j, s) := state
  match ts.extTensors[j]? with
  | none => none
  | some slot =>
    if slot.isNull then some (j + 1, s.pushFront 0)
    else if x.1.cfgNum ≠ .dynamic then
      let s := if l.showsShape isInput x.2 then
        l.prepareDimInfo s slot.rt2Tensor.storageShape else s
      let alignTensorSize := alignSize slot.rt2Tensor.data.length.toUInt64 blockSize
      some (j + 1, s.pushFront alignTensorSize)
    else do
      let slots ← ts.ownSlots x.1
      some (j + x.1.num, s.pushFront (dynamicSize slots))

/-- `NnopbaseExecutorPrepareIOSize`. -/
def prepareIoSize (l : DfxLaunch) (isInput : Bool) (ts : Tensors) (s : Streams UInt64) :
    Option (Streams UInt64) := do
  let last ← ts.instances.zipIdx.foldlM (l.prepareParamSize isInput ts) (0, s)
  some last.2

/-- What `NnopbaseExecutorSetDfxInfo` writes behind inputs and outputs. -/
def setWorkspaceSizes (l : DfxLaunch) (s : Streams UInt64) : Streams UInt64 :=
  let s := if l.outPutShapeSize ≠ 0 then
    s.pushFront (alignSize l.outPutShapeSize blockSize) else s
  let workSpaceSize := l.workspacesSizes.headD 0
  let s := s.pushFront <| if l.isPrintEnable || l.isAssertEnable || l.isTimeStampEnable then
    alignSize (workSpaceSize + l.debugBufSize) blockSize else alignSize workSpaceSize blockSize
  l.workspacesSizes.tail.foldl (fun s size => s.pushFront (alignSize size blockSize)) s

/-- `NnopbaseExecutorSetDfxInfo`. -/
def setDfxInfo (l : DfxLaunch) (inputs outputs : Tensors) : Option (Streams UInt64) := do
  let s ← l.prepareIoSize true inputs
    (Streams.start l.hcomHandle (l.oomNum inputs outputs).toNat)
  let s ← l.prepareIoSize false outputs s
  some (l.setWorkspaceSizes s)

/-- The words `NnopbaseExecutorPrepareDfxInfo` reserves. -/
def space (l : DfxLaunch) (inputs outputs : Tensors) : Option UInt32 := do
  let space ← l.getIoShapeSizes true inputs 0
  let space ← l.getIoShapeSizes false outputs space
  some (space + l.oomNum inputs outputs)

/-- `NnopbaseExecutorPrepareDfxInfo`: the words reserved, and what is written. -/
def prepareDfxInfo (l : DfxLaunch) (inputs outputs : Tensors) :
    Option (UInt32 × Streams UInt64) := do
  let space ← l.space inputs outputs
  let s ← l.setDfxInfo inputs outputs
  some (space, s)

end DfxLaunch

end OpBase.Indv
