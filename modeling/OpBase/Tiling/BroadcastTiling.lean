import OpBase.Tiling.DimensionCollapse

/-!
# Broadcast tiling

`DoBrodcastTiling` of `broadcast_tiling.cpp`. One pass over the collapsed output shape,
from the last axis on, finds the axis that no longer fits into the unified buffer. That axis
is cut into pieces of `ubFormer`. The pieces, times the axes in front, are the loop that
the cores divide among themselves in blocks of `blockFormer`.

The source goes through three types: the sizes are `int64_t`, the products `uint64_t` and
`ubFormer` is a `uint32_t`.
-/

namespace OpBase.Tiling

def uint64 (z : ℤ) : ℤ := z % 2 ^ 64
def uint32 (z : ℤ) : ℤ := z % 2 ^ 32

/-- A `uint64_t` as an `int64_t`. -/
def asInt64 (z : ℤ) : ℤ := (z + 2 ^ 63) % 2 ^ 64 - 2 ^ 63

/-- Division by zero is undefined. -/
def divide (a b : ℤ) : Except Fault ℤ := if b = 0 then .error .undefined else .ok (a.tdiv b)

/-- `v[i]`, with no check of the bounds. -/
def nth (v : List ℤ) (i : ℕ) : Except Fault ℤ :=
  match v[i]? with
  | some x => .ok x
  | none => .error .undefined

structure BroadcastComputeParams where
  minDtypeBits : ℤ
  extraSize : List ℤ
  bufferDivisor : List ℤ

structure BroadcastTilingParams where
  coreNum : ℤ
  ubSize : ℤ
  computeMap : ℤ → Option BroadcastComputeParams

structure BroadcastTilingData where
  innerKey : ℤ
  ubSplitAxis : ℤ
  ubFormer : ℤ
  blockFormer : ℤ
  ubOuter : ℤ
  ubTail : ℤ
  blockNum : ℤ
  blockTail : ℤ
  dimProductBeforeUbInner : ℤ
  elemNum : ℤ
  deriving DecidableEq

def BROADCAST_REPEAT_BYTES : ℤ := 256
def BROADCAST_BITS_NUM : ℤ := 8
def BROADCAST_COMPUTE_KEY_OFFSET : ℤ := 1000000
def BROADCAST_COMPUTE_KEY : ℤ := 1
def MAX_NDDMA_DIM : ℤ := 5
def SCHEDULE_KEY_1 : ℤ := 100
def SCHEDULE_KEY_2 : ℤ := 1100

def broadcastGetScheduleKey (axisInsideUB : ℤ) : ℤ :=
  if axisInsideUB ≤ MAX_NDDMA_DIM then SCHEDULE_KEY_1 else SCHEDULE_KEY_2

def broadcastGetMaxElemNum (ubSize : ℤ) (computeParams : BroadcastComputeParams) :
    Except Fault ℤ := do
  let extraSize ← nth computeParams.extraSize 0
  let bufferDivisor ← nth computeParams.bufferDivisor 0
  let room ← int64 (ubSize - extraSize)
  let roomBits ← int64 (room * BROADCAST_BITS_NUM)
  let maxElemNums ← divide roomBits bufferDivisor
  let maxElemNums ← int64 maxElemNums
  let alignFactor ← divide (BROADCAST_REPEAT_BYTES * BROADCAST_BITS_NUM) computeParams.minDtypeBits
  let aligned ← divide maxElemNums alignFactor
  let aligned ← int64 aligned
  int64 (aligned * alignFactor)

/-- The loop from the last axis on, with `i` axes still in front. It leaves the product of the
axes behind the split, and the split axis where it found one. -/
def ubSplit (maxElemNum : ℤ) (dims : List ℤ) : ℕ → ℤ → Except Fault (ℤ × Option ℕ)
  | 0, curProduct => .ok (curProduct, none)
  | i + 1, curProduct => do
    let dim ← nth dims i
    let product := uint64 (curProduct * dim)
    if maxElemNum < product then do
      let curProduct ← divide product (uint64 dim)
      .ok (curProduct, some i)
    else ubSplit maxElemNum dims i product

/-- Where every axis fits, the first one is split. -/
def findUbSplit (maxElemNum : ℤ) (dims : List ℤ) : Except Fault (ℤ × ℕ) := do
  let (curProduct, split) ← ubSplit maxElemNum dims dims.length 1
  match split with
  | some i => .ok (curProduct, i)
  | none => do
    let dim ← nth dims 0
    let curProduct ← divide curProduct (uint64 dim)
    .ok (curProduct, 0)

/-- The pieces of the split axis, and the blocks of the loop over them. -/
def cutDims (coreNum maxElemNum : ℤ) (dims : List ℤ) (shapeLen : ℤ) (ubSplitAxes : ℕ)
    (ubFormer : ℤ) : Except Fault BroadcastTilingData := do
  let dim ← nth dims ubSplitAxes
  let sum ← int64 (dim + ubFormer)
  let sum ← int64 (sum - 1)
  let ubOuter ← divide sum ubFormer
  let ubOuter := uint64 ubOuter
  let ubTail := uint64 (dim - (ubOuter - 1) * ubFormer)
  let fusedProduct := (dims.take ubSplitAxes).foldl (fun p d => uint64 (p * d)) ubOuter
  if coreNum = 0 then .error .graphFailed
  else do
    let blockFormer ← divide (uint64 (fusedProduct + coreNum - 1)) (uint64 coreNum)
    let blockNum ← divide (uint64 (fusedProduct + blockFormer - 1)) blockFormer
    let blockTail := uint64 (fusedProduct - (blockNum - 1) * blockFormer)
    let scheduleKey := broadcastGetScheduleKey (uint32 (shapeLen - ubSplitAxes))
    .ok {
      innerKey := BROADCAST_COMPUTE_KEY * BROADCAST_COMPUTE_KEY_OFFSET + scheduleKey
      ubSplitAxis := ubSplitAxes
      ubFormer := ubFormer
      blockFormer := asInt64 blockFormer
      ubOuter := asInt64 ubOuter
      ubTail := asInt64 ubTail
      blockNum := asInt64 blockNum
      blockTail := asInt64 blockTail
      dimProductBeforeUbInner := asInt64 fusedProduct
      elemNum := asInt64 maxElemNum }

/-- What becomes `ubFormer`. -/
def ubQuotient (maxElemNum curProduct : ℤ) (dims : List ℤ) : Except Fault ℤ :=
  if dims.length = 1 then .ok maxElemNum else divide maxElemNum curProduct

/-- `DoBrodcastTiling` once `maxElemNum` is known, on `dims.back()`. -/
def splitDims (coreNum maxElemNum : ℤ) (dims : List ℤ) (shapeLen : ℤ) :
    Except Fault BroadcastTilingData := do
  let (curProduct, ubSplitAxes) ← findUbSplit maxElemNum dims
  let quotient ← ubQuotient maxElemNum curProduct dims
  cutDims coreNum maxElemNum dims shapeLen ubSplitAxes (uint32 quotient)

/-- The computing parameters and the number of elements that fit into the buffer. -/
def brodcastMaxElemNum (params : BroadcastTilingParams) : Except Fault ℤ :=
  match params.computeMap BROADCAST_COMPUTE_KEY with
  | none => .error .graphFailed
  | some computeParams => do
    let extraSize ← nth computeParams.extraSize 0
    if params.ubSize < extraSize then .error .graphFailed
    else do
      let maxElemNum ← broadcastGetMaxElemNum params.ubSize computeParams
      .ok (uint64 maxElemNum)

def doBrodcastTiling (params : BroadcastTilingParams) (dims : List ℤ) (shapeLen : ℤ) :
    Except Fault BroadcastTilingData := do
  let maxElemNum ← brodcastMaxElemNum params
  if maxElemNum = 0 then .error .graphFailed
  else splitDims params.coreNum maxElemNum dims shapeLen

end OpBase.Tiling
