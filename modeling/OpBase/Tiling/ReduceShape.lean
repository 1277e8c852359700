import OpBase.Tiling.BroadcastTiling

/-!
# Shape simplification for reductions

`ReduceOpTiling` of `reduce_tiling.cpp` reduces a shape along some of its axes. `ParamCheck`
makes the axes non-negative and sorts them. `TransformShape` then puts an axis of size one
in front of the shape, leaves out the others of size one (`EliminateOne`) and multiplies
neighbouring axes of one kind together (`MergeAxis`). Both consume the list of axes while
they go: they look for an index from its front, change what they find or erase it.

In the result kept and reduced axes take turns. `DoTilingMatchPattern` reads nothing but
their number: in each of its patterns (`A`, `AR`, `ARA`, …) axis `idx` is a kept one if
`idx` is even.
-/

namespace OpBase.Tiling

def MAX_DIM : ℕ := 9

/-- `MakeWrapDim`: negative axes count from behind. -/
def makeWrapDim (shape axes : List ℤ) : List ℤ :=
  let wrapped : List ℤ := axes.map fun a => if a < 0 then a + shape.length else a
  wrapped.insertionSort (· ≤ ·)

def axesCheck (shape axes : List ℤ) : Bool :=
  axes.length ≤ shape.length ∧ ∀ a ∈ axes, a < shape.length ∧ 0 ≤ a

/-- `ParamCheck`, which leaves the sorted axes. `dtypeSize` is the size of the input's type. -/
def paramCheck (dtypeSize : ℤ) (shape axes : List ℤ) : Except Fault (List ℤ) :=
  if dtypeSize ≤ 0 then .error .graphFailed
  else
    let axes := makeWrapDim shape axes
    if axesCheck shape axes then .ok axes else .error .graphFailed

/-- The loop over the shape in `EliminateOne`. The array of the new shape has `MAX_DIM` places,
and no check of its bounds. -/
def eliminateLoop : List ℤ → ℕ → ℤ → List ℤ → List ℤ → Except Fault (List ℤ × List ℤ)
  | [], _, _, axes, shape => .ok (axes, shape)
  | dim :: oriShape, i, eraseNum, axes, shape =>
    if dim ≠ 1 then
      if shape.length < MAX_DIM then
        eliminateLoop oriShape (i + 1) eraseNum
          (axes.replace (i + 1 : ℤ) (i + 1 - eraseNum)) (shape ++ [uint64 dim])
      else .error .undefined
    else eliminateLoop oriShape (i + 1) (eraseNum + 1) (axes.erase (i + 1 : ℤ)) shape

/-- `EliminateOne`: the axes and the shape that it leaves. All axes move up by one, since there
is an axis of size one in front. -/
def eliminateOne (oriShape axes : List ℤ) : Except Fault (List ℤ × List ℤ) :=
  eliminateLoop oriShape 0 0 (axes.map (· + 1)) [1]

/-- The end of a run of axes, number `idx`, in `MergeAxis`. An iterator is the position it points
to, or nothing once it is no longer valid. -/
def closeRun (isRAxis0 : Bool) (iter0 : Option ℕ) (idx : ℕ) (axes : List ℤ) :
    Except Fault (List ℤ) :=
  if isRAxis0 then
    match iter0 with
    | some p => .ok (axes.set p idx)
    | none => .error .undefined
  else .ok axes

/-- Erasing at `p` leaves the iterators in front of `p` valid. -/
def eraseKeeps (iter0 : Option ℕ) (p : ℕ) : Option ℕ :=
  match iter0 with
  | some q => if q < p then some q else none
  | none => none

/-- The two loops of `MergeAxis`, at axis `j` of the shape, with the product `s` of the run so
far. -/
def mergeLoop (isRAxis0 : Bool) (iter0 : Option ℕ) (s : ℤ) (idx : ℕ) (axes : List ℤ) (j : ℕ) :
    List ℤ → Except Fault (List ℤ × List ℤ)
  | [] => do
    let axes ← closeRun isRAxis0 iter0 idx axes
    .ok ([s], axes)
  | dim :: shape =>
    match axes.idxOf? (j : ℤ), isRAxis0 with
    | some p, true =>
      mergeLoop true (eraseKeeps iter0 p) (uint64 (s * dim)) idx (axes.eraseIdx p) (j + 1) shape
    | none, false => mergeLoop false iter0 (uint64 (s * dim)) idx axes (j + 1) shape
    | _, _ => do
      -- the next run begins
      let axes ← closeRun isRAxis0 iter0 idx axes
      let iter0 := axes.idxOf? (j : ℤ)
      let (shape, axes) ← mergeLoop iter0.isSome iter0 dim (idx + 1) axes (j + 1) shape
      .ok (s :: shape, axes)

def mergeAxis (axes : List ℤ) : List ℤ → Except Fault (List ℤ × List ℤ)
  | [] => .ok ([], axes)
  | dim :: shape =>
    let iter0 := axes.idxOf? 0
    mergeLoop iter0.isSome iter0 dim 0 axes 1 shape

/-- `TransformShape`: the new shape. -/
def transformShape (oriShape axes : List ℤ) : Except Fault (List ℤ) := do
  let (axes, shape) ← eliminateOne oriShape axes
  let (shape, _) ← mergeAxis axes shape
  .ok shape

/-- `IsAxisA` for the patterns that `DoTilingMatchPattern` chooses from. -/
def isAxisA (idx : ℕ) : Bool := idx % 2 = 0

end OpBase.Tiling
