import Mathlib

/-!
# Element types and byte counts

`include/nnopbase/opdev/data_type_utils.h` and
`src/nnopbase/common/utils/data_type_utils.cpp`: the size table of `ge::DataType`
and the two byte counts built on it, `op::CalcShapeBytes` (view and storage
offsets) and `KernelTensor::CalcSize` (what the workspace planner reserves).

Both multiply through `ge::MulOverflow`, which wraps the product to `int64_t`
and reports that it did; neither caller stops on the report, so the wrapped
value is what the program goes on with.
-/

namespace OpBase

/-- `ge::DataType`, by its enumerator's 32-bit code. A value cast from an
`aclDataType` may lie outside the table; `typeSize` has a branch for it. -/
structure DataType where
  code : UInt32
deriving DecidableEq, Repr

namespace DataType

def DT_FLOAT : DataType := ⟨0⟩
def DT_FLOAT16 : DataType := ⟨1⟩
def DT_INT8 : DataType := ⟨2⟩
def DT_INT32 : DataType := ⟨3⟩
def DT_UINT8 : DataType := ⟨4⟩
def DT_INT16 : DataType := ⟨6⟩
def DT_UINT16 : DataType := ⟨7⟩
def DT_UINT32 : DataType := ⟨8⟩
def DT_INT64 : DataType := ⟨9⟩
def DT_UINT64 : DataType := ⟨10⟩
def DT_DOUBLE : DataType := ⟨11⟩
def DT_BOOL : DataType := ⟨12⟩
def DT_COMPLEX64 : DataType := ⟨16⟩
def DT_COMPLEX128 : DataType := ⟨17⟩
def DT_BF16 : DataType := ⟨27⟩
def DT_INT4 : DataType := ⟨29⟩

end DataType

/-- Sizes above this count bits, not bytes. -/
def kDataTypeSizeBitOffset : Nat := 1000

/-- The `data_type_size` table of `op::TypeSize`, indexed by code; `-1` marks a
type without a size. -/
def dataTypeSize : List Int :=
  [4, 2, 1, 4, 1, -1, 2, 2, 4, 8, 8, 8, 1, -1, 1, 1, 8, 16, 1, 2, 4, 1, 2, 8, -1, 5, 8, 2, -1,
   1004, 1001, 1002, 1002, 4, 1, 1, 1, 1, 1006, 1006, 1004, 1004]

/-- `op::TypeSize`: the table entry, or `sizeof(complex128)` for a code outside
the table and for a type without a size. -/
def typeSize (dataType : DataType) : Nat :=
  match dataTypeSize[dataType.code.toNat]? with
  | none => 16
  | some s => if s ≤ 0 then 16 else s.toNat

theorem typeSize_pos (dataType : DataType) : 0 < typeSize dataType := by
  unfold typeSize
  split
  next => decide
  next => split <;> omega

theorem typeSize_le (dataType : DataType) : typeSize dataType ≤ 1006 := by
  have htable : ∀ s ∈ dataTypeSize, s ≤ 1006 := by decide
  unfold typeSize
  split
  next => decide
  next s hs =>
    have := htable s (List.mem_of_getElem? hs)
    split <;> omega

/-- Two's complement wrap to `int64_t`. -/
def wrapInt64 (x : Int) : Int := Int.bmod x (2 ^ 64)

/-- Two's complement wrap to `int32_t`. -/
def asInt32 (x : Int) : Int := (x + 2 ^ 31) % 2 ^ 32 - 2 ^ 31

/-- `ge::MulOverflow`: whether the product leaves `int64_t`, and the wrapped product. -/
def mulOverflow (lhs : Nat) (rhs : Int) : Bool × Int :=
  (wrapInt64 (lhs * rhs) != lhs * rhs, wrapInt64 (lhs * rhs))

/-- `op::CalcShapeBytes`: the byte count of `size` elements. The source's `ceil`
flag selects the branch that rounds a bit count *down*. -/
def calcShapeBytes (size : Int) (dataType : DataType) (ceil : Bool) : Int :=
  if typeSize dataType > kDataTypeSizeBitOffset then
    let byteNum := (mulOverflow (typeSize dataType - kDataTypeSizeBitOffset) size).2
    if !ceil then wrapInt64 (byteNum + 7) >>> (3 : Nat) else byteNum >>> (3 : Nat)
  else
    (mulOverflow (typeSize dataType) size).2

/-- `KernelTensor::CalcSize`: the value left in `tensorSize_` for a storage of
`shapeSize` elements. On overflow the function returns early, with the wrapped
product already stored and a bit count not yet converted. The conversion itself
is done in `size_t`. -/
def calcSize (shapeSize : Int) (dataType : DataType) : Int :=
  if typeSize dataType > kDataTypeSizeBitOffset then
    let (overflow, size) := mulOverflow (typeSize dataType - kDataTypeSizeBitOffset) shapeSize
    if overflow then size else ((size + 7) % 2 ^ 64) >>> (3 : Nat)
  else
    (mulOverflow (typeSize dataType) shapeSize).2

theorem wrapInt64_lt (x : Int) : wrapInt64 x < 2 ^ 63 := by
  have := Int.bmod_lt (x := x) (m := 2 ^ 64) (by decide)
  unfold wrapInt64
  omega

/-- The planner's byte counts are `int64_t` values. -/
theorem calcSize_lt (shapeSize : Int) (dataType : DataType) :
    calcSize shapeSize dataType < 2 ^ 63 := by
  unfold calcSize mulOverflow
  split
  · simp only
    split
    · exact wrapInt64_lt _
    · rw [Int.shiftRight_eq_div_pow]
      omega
  · exact wrapInt64_lt _

end OpBase
