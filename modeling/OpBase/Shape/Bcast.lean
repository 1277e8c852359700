import OpBase.Shape.Broadcast
import OpBase.Shape.TensorView

/-!
# Broadcasting of two AICPU inputs

`aicpu_common/context/utils/bcast.cc`. The constructor of `Bcast` aligns two shapes at their
last axes, takes neighbouring axes together along which the same input repeats, and makes
strides from which `GetBroadcastXIndex` and `GetBroadcastYIndex` find the element of an input
for an element of the output. `GenerateBcastInfo` checks the shape of the output as well and
keeps the axes as they are; `BCastIndexes` makes the lists of all these elements from them.

Products are exact here. Whether one of them left `int64_t`, which the language leaves
undefined, is noted beside them.
-/

namespace OpBase.Shape

/-! ## The constructor -/

/-- `State` -/
inductive State where
  | unknown | same | xOne | yOne
deriving DecidableEq

/-- An entry of each of the vectors `result_shape_`, `x_reshape_`, `x_bcast_`, `y_reshape_`
and `y_bcast_`, which are extended together. -/
@[ext]
structure Dim where
  resultShape : ℤ
  xReshape : ℤ
  xBcast : ℤ
  yReshape : ℤ
  yBcast : ℤ
deriving DecidableEq

/-- `Bcast`. `overflow` is noted for the proofs; all vectors but `shapeOut` have the last
axis last. -/
structure Bcast where
  valid : Bool
  overflow : Bool
  shapeOut : List ℤ
  dims : List Dim
  xInputStrides : List ℤ
  yInputStrides : List ℤ
  xOutputStrides : List ℤ
  yOutputStrides : List ℤ
deriving DecidableEq

namespace Bcast

/-- The state before the first axis. -/
def start : Bcast := ⟨true, false, [], [], [], [], [], []⟩

/-- The branches over an axis, and the values they set. -/
def axisDim (x y : ℤ) : Option (State × Dim) :=
  if x = y then some (.same, ⟨x, x, 1, y, 1⟩)
  else if x = 1 then some (.xOne, ⟨y, x, y, y, 1⟩)
  else if y = 1 then some (.yOne, ⟨x, x, 1, y, x⟩)
  else none

def mulDim (d e : Dim) : Dim :=
  ⟨d.resultShape * e.resultShape, d.xReshape * e.xReshape, d.xBcast * e.xBcast,
    d.yReshape * e.yReshape, d.yBcast * e.yBcast⟩

def DimInt64 (d : Dim) : Prop :=
  IsInt64 d.resultShape ∧ IsInt64 d.xReshape ∧ IsInt64 d.xBcast ∧ IsInt64 d.yReshape ∧
    IsInt64 d.yBcast

instance (d : Dim) : Decidable (DimInt64 d) := inferInstanceAs (Decidable (_ ∧ _))

/-- `result_shape_.back() *= o_i` and the like; the last entry stands in front. -/
def mulBack (b : Bcast) (d : Dim) : Bcast :=
  match b.dims with
  | [] => b
  | e :: dims =>
    { b with
      overflow := b.overflow || !decide (DimInt64 (mulDim e d))
      dims := mulDim e d :: dims }

/-- A round of the loop of `Init`, which an axis that does not fit has ended. The vectors are
reversed in the end and have their last entries in front from the start here. -/
def initStep (s : State × Bcast) (axis : ℤ × ℤ) : State × Bcast :=
  let (prev, b) := s
  if !b.valid then s
  else
    match axisDim axis.1 axis.2 with
    | none => (prev, { b with valid := false })
    | some (curr, d) =>
      let b := { b with shapeOut := b.shapeOut ++ [d.resultShape] }
      if curr = .same ∧ axis.1 = 1 then (prev, b)
      else if prev = curr then (curr, b.mulBack d)
      else (curr, { b with dims := d :: b.dims })

/-- `Init` -/
def init (axes : List (ℤ × ℤ)) : Bcast := (axes.foldl initStep (.unknown, start)).2

/-- `resize`, to a size that is not smaller. -/
def resize (n : ℕ) (shape : List ℤ) : List ℤ := shape ++ List.replicate (n - shape.length) 1

/-- The axes of the two shapes, the last one first. -/
def reversedAxes (xShape yShape : List ℤ) : List (ℤ × ℤ) :=
  let x := xShape.reverse
  let y := yShape.reverse
  if y.length < x.length then x.zip (resize x.length y) else (resize y.length x).zip y

/-- The strides, of which the last is one and every other the next one times the size that
belongs to that. -/
def stridesOf (size : Dim → ℤ) : List Dim → List ℤ
  | [] => []
  | _ :: dims =>
    match dims, stridesOf size dims with
    | d :: _, s :: strides => s * size d :: s :: strides
    | _, _ => [1]

/-- `generate strides, just for row major`; the number of axes is taken as an `int32_t`. -/
def generateStrides (b : Bcast) : Bcast :=
  let xIn := stridesOf Dim.xReshape b.dims
  let yIn := stridesOf Dim.yReshape b.dims
  let out := stridesOf Dim.resultShape b.dims
  { b with
    overflow := b.overflow || !decide (∀ s ∈ xIn ++ yIn ++ out, IsInt64 s) ||
      decide (2 ^ 31 ≤ b.dims.length)
    xInputStrides := xIn
    yInputStrides := yIn
    xOutputStrides := out
    yOutputStrides := out }

/-- The loop over equal shapes. -/
def countStep (b : Bcast) (elementsNum : ℤ) : List ℤ → Bcast × ℤ
  | [] => (b, elementsNum)
  | d :: shape =>
    countStep
      { b with
        overflow := b.overflow || !decide (IsInt64 (elementsNum * d))
        shapeOut := b.shapeOut ++ [d] }
      (elementsNum * d) shape

/-- `Bcast::Bcast` -/
def bcast (xShape yShape : List ℤ) : Bcast :=
  if xShape = yShape then
    let (b, elementsNum) := countStep start 1 xShape
    { b with dims := [⟨elementsNum, elementsNum, 1, elementsNum, 1⟩] }
  else
    let b := init (reversedAxes xShape yShape)
    -- an object that is not valid keeps the last axis first
    if !b.valid then { b with dims := b.dims.reverse }
    else generateStrides (if b.dims = [] then { b with dims := [⟨1, 1, 1, 1, 1⟩] } else b)

/-! ## Elements of the inputs -/

/-- The loop over the axes, and behind it the last axis: a size and a repetition for each
axis, a stride of the input and one of the output for each. The division by zero, the reading
of a stride that was not made and an overflow are `none`. -/
def indexLoop (inputIndex index : ℤ) : List (ℤ × ℤ) → List (ℤ × ℤ) → Option ℤ
  | [], _ => none
  | [(reshape, repeats)], _ =>
    if repeats = 1 then int64 (inputIndex + index)
    else if reshape = 1 then some inputIndex
    else if reshape = 0 then none
    else int64 (inputIndex + index.tmod reshape)
  | _ :: _, [] => none
  | (reshape, repeats) :: axes, (inputStride, outputStride) :: strides =>
    if outputStride = 0 then none
    else do
      let idx ← int64 (index.tdiv outputStride)
      let inputIndex ←
        if repeats = 1 then do
          let step ← int64 (idx * inputStride)
          int64 (inputIndex + step)
        else if reshape = 1 then some inputIndex
        else if reshape = 0 then none
        else do
          let step ← int64 (idx.tmod reshape * inputStride)
          int64 (inputIndex + step)
      let passed ← int64 (idx * outputStride)
      let index ← int64 (index - passed)
      indexLoop inputIndex index axes strides

/-- `GetBroadcastXIndex` -/
def getBroadcastXIndex (b : Bcast) (index : ℤ) : Option ℤ :=
  if b.overflow then none
  else
    indexLoop 0 index (b.dims.map fun d => (d.xReshape, d.xBcast))
      (b.xInputStrides.zip b.xOutputStrides)

/-- `GetBroadcastYIndex` -/
def getBroadcastYIndex (b : Bcast) (index : ℤ) : Option ℤ :=
  if b.overflow then none
  else
    indexLoop 0 index (b.dims.map fun d => (d.yReshape, d.yBcast))
      (b.yInputStrides.zip b.yOutputStrides)

/-! ## The axes as they are -/

/-- What `GenerateBcastInfo` leaves in a new object. -/
structure Info where
  xReshape : List ℤ
  yReshape : List ℤ
  shapeOut : List ℤ
  xBcast : List ℤ
  yBcast : List ℤ
deriving DecidableEq

/-- The loop that generates the repetitions. -/
def repetitions : List (ℤ × ℤ) → Option (List (ℤ × ℤ))
  | [] => some []
  | (x, y) :: axes => do
    let r ←
      if x = y then some (1, 1)
      else if x = 1 then some (y, 1)
      else if y = 1 then some (1, x)
      else none
    let rest ← repetitions axes
    some (r :: rest)

/-- `GenerateBcastInfo`; `none` is `KERNEL_STATUS_PARAM_INVALID`. -/
def generateBcastInfo (shapeX shapeY shapeOut : List ℤ) : Option Info :=
  if shapeX = [] ∧ shapeY = [] ∧ shapeOut = [] then some ⟨[], [], [], [], []⟩
  else
    let maxSize := if shapeY.length < shapeX.length then shapeX.length else shapeY.length
    let xReshape :=
      if shapeX.length < shapeY.length then (resize maxSize shapeX.reverse).reverse else shapeX
    let yReshape :=
      if shapeY.length < shapeX.length then (resize maxSize shapeY.reverse).reverse else shapeY
    if shapeOut.length ≠ maxSize then none
    else if ∃ i < maxSize,
        shapeOut.getD i 0 ≠ max (xReshape.getD i 0) (yReshape.getD i 0) then none
    else do
      let r ← repetitions (xReshape.zip yReshape)
      some ⟨xReshape, yReshape, shapeOut, r.map Prod.fst, r.map Prod.snd⟩

/-- The two lists on the way, `x_bias` and `y_bias`. -/
@[ext]
structure Indexes where
  overflow : Bool
  xIndexes : List ℤ
  yIndexes : List ℤ
  xBias : ℤ
  yBias : ℤ
deriving DecidableEq

/-- What the inner loops push on one of the lists: for each `j` from 1 on another copy. -/
def pushed (indexes : List ℤ) (dim bias outDim : ℤ) : List ℤ :=
  (List.range' 1 (outDim.toNat - 1)).flatMap fun j : ℕ =>
    indexes.map fun v => v + if dim = 1 then 0 else j * bias

/-- The products that are added there. -/
def steps (indexes : List ℤ) (dim bias outDim : ℤ) : List ℤ :=
  if indexes = [] ∨ dim = 1 then []
  else (List.range' 1 (outDim.toNat - 1)).map fun j : ℕ => j * bias

/-- `Process 0-th dimension` -/
def firstIndexes (xDim yDim outDim : ℤ) : Indexes where
  overflow := false
  xIndexes := (List.range outDim.toNat).map fun i : ℕ => if xDim = 1 then 0 else (i : ℤ)
  yIndexes := (List.range outDim.toNat).map fun i : ℕ => if yDim = 1 then 0 else (i : ℤ)
  xBias := xDim
  yBias := yDim

/-- `Process the remaining dimensions` -/
def indexesStep (s : Indexes) (axis : ℤ × ℤ × ℤ) : Indexes :=
  let (xDim, yDim, outDim) := axis
  let xs := pushed s.xIndexes xDim s.xBias outDim
  let ys := pushed s.yIndexes yDim s.yBias outDim
  let computed := steps s.xIndexes xDim s.xBias outDim ++ xs ++
    steps s.yIndexes yDim s.yBias outDim ++ ys ++ [s.xBias * xDim, s.yBias * yDim]
  { overflow := s.overflow || !decide (∀ v ∈ computed, IsInt64 v)
    xIndexes := s.xIndexes ++ xs
    yIndexes := s.yIndexes ++ ys
    xBias := s.xBias * xDim
    yBias := s.yBias * yDim }

/-- `BCastIndexes` into empty lists; `none` is overflow. -/
def bcastIndexes (info : Info) : Option (List ℤ × List ℤ) :=
  let s :=
    match info.xReshape.reverse.zip (info.yReshape.reverse.zip info.shapeOut.reverse) with
    | [] => firstIndexes 1 1 1
    | (xDim, yDim, outDim) :: axes => axes.foldl indexesStep (firstIndexes xDim yDim outDim)
  if s.overflow then none else some (s.xIndexes, s.yIndexes)

end Bcast

end OpBase.Shape
