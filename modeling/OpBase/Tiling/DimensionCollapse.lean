import OpBase.Lib.RowMajor
import OpBase.Lib.Checked

/-!
# Dimension collapse for broadcasting

`DimensionCollapse` of `broadcast_tiling.cpp` takes the shapes of the inputs and of the
output of a broadcasting operator. It checks every axis, gives each one a flag with one
bit for each input (set where the input has size one), and then goes over the axes of one
shape after the other, multiplying neighbouring sizes together. Which ones is decided by
the flags and by the output's sizes, so that all the shapes are merged alike. Last come the
strides, with zero along an axis that repeats.
-/

namespace OpBase.Tiling

/-- `ge::GRAPH_FAILED`, or behaviour that the language leaves undefined. -/
inductive Fault
  | graphFailed
  | undefined
  deriving DecidableEq

/-- The result of an operation on `int64_t`, whose overflow is undefined. -/
def int64 (z : ℤ) : Except Fault ℤ :=
  if -2 ^ 63 ≤ z ∧ z < 2 ^ 63 then .ok z else .error .undefined

/-- An axis of all shapes: the size that each input has there, and the output's. -/
structure Axis where
  values : List ℤ
  out : ℤ
  deriving DecidableEq

/-- A shape with fewer axes than the output gets axes of size one in front. -/
def padded (maxDim : ℕ) (x : List ℤ) : List ℤ := List.replicate (maxDim - x.length) 1 ++ x

def padShape (maxDim : ℕ) (x : List ℤ) : Except Fault (List ℤ) :=
  if maxDim < x.length then .error .graphFailed else .ok (padded maxDim x)

def axes (inputShapes : List (List ℤ)) (outputShapes : List ℤ) : List Axis :=
  outputShapes.zipIdx.map fun p => ⟨inputShapes.map (·.getD p.2 1), p.1⟩

/-- The loop over the inputs for one axis. -/
def axisFlag (out : ℤ) : List ℤ → ℤ → Except Fault ℤ
  | [], flag => .ok flag
  | x :: xs, flag => do
    let shifted ← int64 (flag * 2)
    if x ≠ 1 ∧ x ≠ out then .error .graphFailed
    else if x ≤ 0 then .error .graphFailed
    else axisFlag out xs (if x = 1 then shifted + 1 else shifted)

/-- `(1 << inputShapes.size()) - 1` is computed in `int`. -/
def targetFlag (inputs : ℕ) : Except Fault ℤ :=
  if inputs < 31 then .ok (2 ^ inputs - 1) else .error .undefined

/-- The loop over the axes of one shape: for each axis that is left its size, its flag and the
output's size there. `back` is the last collapsed size so far. -/
def collapseLoop (target : ℤ) : ℤ → ℤ → ℤ → List (ℤ × ℤ × ℤ) → Except Fault (List ℤ)
  | _, _, back, [] => .ok [back]
  | prevFlag, prevOut, back, (curValue, curFlag, curOut) :: rest =>
    if prevFlag = curFlag ∨ (prevFlag = target ∧ prevOut = 1) then do
      let product ← int64 (curValue * back)
      collapseLoop target curFlag curOut product rest
    else if curFlag = target ∧ curOut = 1 then
      collapseLoop target prevFlag curOut back rest
    else do
      let dims ← collapseLoop target curFlag curOut curValue rest
      .ok (back :: dims)

/-- Without axes the source reads the first one all the same. -/
def collapse (target : ℤ) (flags outputShapes : List ℤ) : List ℤ → Except Fault (List ℤ)
  | [] => .error .undefined
  | v :: vs =>
    match flags, outputShapes with
    | f :: fs, o :: os => collapseLoop target f o v (vs.zip (fs.zip os))
    | _, _ => .error .undefined

/-- The loop from the last axis of a shape to its first one, which leaves the strides and
`base`. -/
def strideLoop (isOutput : Bool) : List (ℤ × ℤ) → Except Fault (List ℤ × ℤ)
  | [] => .ok ([], 1)
  | (dim, outDim) :: rest => do
    let (strides, base) ← strideLoop isOutput rest
    if dim = 1 ∧ isOutput = false ∧ outDim ≠ 1 then .ok (0 :: strides, base)
    else do
      let next ← int64 (base * dim)
      .ok (base :: strides, next)

def shapeStrides (isOutput : Bool) (outDims dims : List ℤ) : Except Fault (List ℤ) := do
  let (strides, _) ← strideLoop isOutput (dims.zip outDims)
  .ok strides

/-- `dims` and `strides`, in which the output comes behind the inputs. -/
structure Collapsed where
  inDims : List (List ℤ)
  outDims : List ℤ
  inStrides : List (List ℤ)
  outStrides : List ℤ
  deriving DecidableEq

def dimensionCollapse (inShapes : List (List ℤ)) (outShapes : List ℤ) : Except Fault Collapsed := do
  let inputShapes ← inShapes.mapM (padShape outShapes.length)
  -- the flags have the size of the first input
  if inputShapes = [] then .error .undefined
  else do
    let flags ← (axes inputShapes outShapes).mapM fun a => axisFlag a.out a.values 0
    let target ← targetFlag inputShapes.length
    let inDims ← inputShapes.mapM (collapse target flags outShapes)
    let outDims ← collapse target flags outShapes outShapes
    let inStrides ← inDims.mapM (shapeStrides false outDims)
    let outStrides ← shapeStrides true outDims outDims
    .ok ⟨inDims, outDims, inStrides, outStrides⟩

end OpBase.Tiling
