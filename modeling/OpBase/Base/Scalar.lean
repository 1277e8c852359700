import OpBase.Base.DataType
import OpBase.Fp16.Arith
import OpBase.Lib.Memory

/-!
# Scalars

`aclScalar` of `include/nnopbase/opdev/common_types.h` and
`src/nnopbase/common/utils/common_types.cpp`: a data type and a union of sixteen bytes. One
constructor copies the value a pointer leads to into the member for a given data type, the
others are for a value of a certain type each and choose the data type themselves. Fifteen
functions then read the member for the data type and convert it.

Members of the union lie one on top of the other, so that a shorter member is the low end of a
longer one. The conversions of the language and of the two classes for sixteen bits are a
parameter; only those that a constructor makes on the way in are spelled out.

> `to_congr`: what a scalar converts to depends on nothing but its data type and its bytes.
>
> `constructors_agree_iff`: a value gives the same scalar both ways, except for one of half
> precision, which becomes a `float`, and for a `bfloat16`, which is stored as a `float` too and
> then taken for zero.
-/

namespace OpBase

open OpBase.Lib OpBase.Fp16

/-! ## Values -/

/-- The types of the members, and those that are converted to. -/
inductive CppType where
  | float | double | bool
  | int8 | int16 | int32 | int64
  | uint8 | uint16 | uint32 | uint64
  | fp16 | bfloat16
  | complex64 | complex128
deriving DecidableEq

namespace CppType

/-- Number of bits. -/
def width : CppType → Nat
  | bool | int8 | uint8 => 8
  | int16 | uint16 | fp16 | bfloat16 => 16
  | float | int32 | uint32 => 32
  | double | int64 | uint64 | complex64 => 64
  | complex128 => 128

/-- `sizeof` -/
def size (t : CppType) : Nat := t.width / 8

theorem width_eq (t : CppType) : 256 ^ t.size = 2 ^ t.width := by cases t <;> rfl

end CppType

/-- `while (hfMan && !(hfMan & FP16_MAN_HIDE_BIT))` -/
def shiftToHideBit : Nat → Nat → Int → Nat × Int
  | 0, hfMan, hfExp => (hfMan, hfExp)
  | n + 1, hfMan, hfExp =>
    if hfMan ≠ 0 ∧ hfMan &&& FP16_MAN_HIDE_BIT = 0 then
      shiftToHideBit n ((hfMan <<< 1) % 2 ^ 16) (hfExp - 1)
    else (hfMan, hfExp)

/-- `fp16ToFloat` -/
def fp16ToFloat (fpVal : BitVec 16) : BitVec 32 :=
  let (hfSign, hfExp, hfMan) := extractFP16 fpVal.toNat
  let (hfMan, hfExp) := shiftToHideBit 10 hfMan hfExp
  let (eRet, mRet) :=
    if hfMan = 0 then (0, 0)
    else (if hfExp = FP16_MAX_EXP then 0xFF else ((hfExp - FP16_EXP_BIAS + 127) % 2 ^ 32).toNat,
      (hfMan &&& FP16_MAX_MAN) <<< (23 - FP16_MAN_LEN))
  BitVec.ofNat 32 ((hfSign <<< FP32_SIGN_INDEX) ||| (eRet <<< 23) ||| (mRet &&& 0x7FFFFF))

/-- `bfloat16::operator float`: the upper half of a zero is overwritten. -/
def bfloat16ToFloat (value : BitVec 16) : BitVec 32 := value ++ 0#16

/-- `std::abs(x) >= std::numeric_limits<float>::epsilon()`, false of no number. -/
def floatIsNonzero (x : BitVec 32) : Bool :=
  0x34000000#32 ≤ x &&& 0x7FFFFFFF#32 && x &&& 0x7FFFFFFF#32 ≤ 0x7F800000#32

def doubleIsNonzero (x : BitVec 64) : Bool :=
  0x3CB0000000000000#64 ≤ x &&& 0x7FFFFFFFFFFFFFFF#64 &&
    x &&& 0x7FFFFFFFFFFFFFFF#64 ≤ 0x7FF0000000000000#64

/-! ## The class -/

/-- `v` is the union, from address zero on. -/
structure AclScalar where
  dataType : DataType
  v : Mem

namespace AclScalar

/-- The member for a data type, in the same order in the constructor and in `To`. -/
def members : List (DataType × CppType) :=
  [(.DT_FLOAT, .float), (.DT_FLOAT16, .fp16), (.DT_BF16, .bfloat16), (.DT_INT8, .int8),
    (.DT_INT16, .int16), (.DT_UINT16, .uint16), (.DT_UINT8, .uint8), (.DT_INT32, .int32),
    (.DT_INT64, .int64), (.DT_UINT32, .uint32), (.DT_UINT64, .uint64), (.DT_BOOL, .int8),
    (.DT_DOUBLE, .double), (.DT_COMPLEX64, .complex64), (.DT_COMPLEX128, .complex128)]

/-- `aclScalar(const void *data, op::DataType dataType)`, with `mem` as the memory that `data`
is an address of. Throws for a data type without a member. -/
def ofData (junk mem : Mem) (data : Nat) (dataType : DataType) : Option AclScalar :=
  (members.lookup dataType).map fun t =>
    ⟨dataType, junk.store 0 t.size (mem.load data t.size)⟩

/-- The types with a constructor of their own, with a value. -/
inductive Value where
  | int32 (value : BitVec 32)
  | int64 (value : BitVec 64)
  | int16 (value : BitVec 16)
  | int8 (value : BitVec 8)
  | uint32 (value : BitVec 32)
  | uint64 (value : BitVec 64)
  | uint16 (value : BitVec 16)
  | uint8 (value : BitVec 8)
  | float (value : BitVec 32)
  | double (value : BitVec 64)
  | fp16 (value : BitVec 16)
  | bfloat16 (value : BitVec 16)
  | bool (value : Bool)

/-- `dataType_ = dataType; v.member = value;` -/
def assigned (junk : Mem) (dataType : DataType) {w : Nat} (member : BitVec w) : AclScalar :=
  ⟨dataType, junk.store 0 (w / 8) member.toNat⟩

/-- The other constructors. What is not assigned to in the union is left as it was. -/
def ofValue (junk : Mem) : Value → AclScalar
  | .int32 value => assigned junk .DT_INT32 value
  | .int64 value => assigned junk .DT_INT64 value
  | .int16 value => assigned junk .DT_INT16 value
  | .int8 value => assigned junk .DT_INT8 value
  | .uint32 value => assigned junk .DT_UINT32 value
  | .uint64 value => assigned junk .DT_UINT64 value
  | .uint16 value => assigned junk .DT_UINT16 value
  | .uint8 value => assigned junk .DT_UINT8 value
  | .float value => assigned junk .DT_FLOAT value
  | .double value => assigned junk .DT_DOUBLE value
  | .fp16 value => assigned junk .DT_FLOAT (fp16ToFloat value)
  | .bfloat16 value => assigned junk .DT_BF16 (bfloat16ToFloat value)
  | .bool value => assigned junk .DT_BOOL ((BitVec.ofBool value).setWidth 8)

/-- `GetDataType`, `Size`, and the bytes that `GetData` leads to. -/
def getDataType (s : AclScalar) : DataType := s.dataType
def size (s : AclScalar) : Nat := typeSize s.dataType
def getData (s : AclScalar) (i : Nat) : Byte := s.v i

/-! ## Conversions -/

/-- `static_cast`, with the constructors and the operators of `fp16_t` and `bfloat16`. -/
abbrev Casts := (k t : CppType) → BitVec k.width → BitVec t.width

def ofBool (b : Bool) : BitVec CppType.bool.width := (BitVec.ofBool b).setWidth 8

/-- What `To` does with the member it has read. A complex number is converted to complex numbers
only, and everything else falls through to the `return 0`. -/
def convert (c : Casts) : (k t : CppType) → BitVec k.width → BitVec t.width
  | .float, .bool, x => ofBool (floatIsNonzero x)
  | .fp16, .bool, x => ofBool (floatIsNonzero (fp16ToFloat x))
  | .fp16, t, x => c .double t (c .fp16 .double x)
  | .uint16, .fp16, x => c .float .fp16 (c .uint16 .float x)
  | .double, .bool, x => ofBool (doubleIsNonzero x)
  | .complex64, .complex64, x => x
  | .complex64, .complex128, x => c .complex64 .complex128 x
  | .complex64, _, _ => 0
  | .complex128, .complex128, x => x
  | .complex128, .complex64, x => c .complex128 .complex64 x
  | .complex128, _, _ => 0
  | k, t, x => c k t x

/-- `To<T>` -/
def toType (c : Casts) (s : AclScalar) (t : CppType) : BitVec t.width :=
  match members.lookup s.dataType with
  | none => 0
  | some k => convert c k t (BitVec.ofNat k.width (s.v.load 0 k.size))

def toFloat (c : Casts) (s : AclScalar) : BitVec 32 := s.toType c .float
def toDouble (c : Casts) (s : AclScalar) : BitVec 64 := s.toType c .double
def toBool (c : Casts) (s : AclScalar) : BitVec 8 := s.toType c .bool
def toInt8 (c : Casts) (s : AclScalar) : BitVec 8 := s.toType c .int8
def toInt16 (c : Casts) (s : AclScalar) : BitVec 16 := s.toType c .int16
def toInt32 (c : Casts) (s : AclScalar) : BitVec 32 := s.toType c .int32
def toInt64 (c : Casts) (s : AclScalar) : BitVec 64 := s.toType c .int64
def toUint8 (c : Casts) (s : AclScalar) : BitVec 8 := s.toType c .uint8
/-- Through `int16_t`. -/
def toUint16 (c : Casts) (s : AclScalar) : BitVec 16 := c .int16 .uint16 (s.toType c .int16)
def toUint32 (c : Casts) (s : AclScalar) : BitVec 32 := s.toType c .uint32
def toUint64 (c : Casts) (s : AclScalar) : BitVec 64 := s.toType c .uint64
def toFp16 (c : Casts) (s : AclScalar) : BitVec 16 := s.toType c .fp16
/-- Through `float`. -/
def toBf16 (c : Casts) (s : AclScalar) : BitVec 16 := c .float .bfloat16 (s.toType c .float)
def toComplex64 (c : Casts) (s : AclScalar) : BitVec 64 := s.toType c .complex64
def toComplex128 (c : Casts) (s : AclScalar) : BitVec 128 := s.toType c .complex128

/-! ## Agreement -/

theorem member_size : ∀ p ∈ members, p.2.size = typeSize p.1 := by decide

theorem size_of_lookup {dataType : DataType} {k : CppType} (h : members.lookup dataType = some k) :
    k.size = typeSize dataType := by
  obtain ⟨l, r, hl, -⟩ := List.lookup_eq_some_iff.mp h
  exact member_size (dataType, k) (hl ▸ by simp)

theorem toType_congr {a b : AclScalar} (c : Casts) (t : CppType) (htype : a.dataType = b.dataType)
    (hdata : ∀ i, i < a.size → a.getData i = b.getData i) : a.toType c t = b.toType c t := by
  unfold toType
  rw [← htype]
  cases h : members.lookup a.dataType with
  | none => rfl
  | some k =>
    have hload : a.v.load 0 k.size = b.v.load 0 k.size := by
      apply Mem.load_congr
      intro i hi
      rw [size_of_lookup h] at hi
      rw [Nat.zero_add]
      exact hdata i hi
    exact congrArg (fun x => convert c k t (BitVec.ofNat k.width x)) hload

/-- Nothing tells two scalars apart. -/
structure Agree (c : Casts) (a b : AclScalar) : Prop where
  dataType : a.getDataType = b.getDataType
  size : a.size = b.size
  data : ∀ i, i < a.size → a.getData i = b.getData i
  toFloat : a.toFloat c = b.toFloat c
  toDouble : a.toDouble c = b.toDouble c
  toBool : a.toBool c = b.toBool c
  toInt8 : a.toInt8 c = b.toInt8 c
  toInt16 : a.toInt16 c = b.toInt16 c
  toInt32 : a.toInt32 c = b.toInt32 c
  toInt64 : a.toInt64 c = b.toInt64 c
  toUint8 : a.toUint8 c = b.toUint8 c
  toUint16 : a.toUint16 c = b.toUint16 c
  toUint32 : a.toUint32 c = b.toUint32 c
  toUint64 : a.toUint64 c = b.toUint64 c
  toFp16 : a.toFp16 c = b.toFp16 c
  toBf16 : a.toBf16 c = b.toBf16 c
  toComplex64 : a.toComplex64 c = b.toComplex64 c
  toComplex128 : a.toComplex128 c = b.toComplex128 c

theorem agree_of_data {a b : AclScalar} (c : Casts) (htype : a.dataType = b.dataType)
    (hdata : ∀ i, i < a.size → a.getData i = b.getData i) : Agree c a b where
  dataType := htype
  size := congrArg typeSize htype
  data := hdata
  toFloat := toType_congr c .float htype hdata
  toDouble := toType_congr c .double htype hdata
  toBool := toType_congr c .bool htype hdata
  toInt8 := toType_congr c .int8 htype hdata
  toInt16 := toType_congr c .int16 htype hdata
  toInt32 := toType_congr c .int32 htype hdata
  toInt64 := toType_congr c .int64 htype hdata
  toUint8 := toType_congr c .uint8 htype hdata
  toUint16 := congrArg (c .int16 .uint16) (toType_congr c .int16 htype hdata)
  toUint32 := toType_congr c .uint32 htype hdata
  toUint64 := toType_congr c .uint64 htype hdata
  toFp16 := toType_congr c .fp16 htype hdata
  toBf16 := congrArg (c .float .bfloat16) (toType_congr c .float htype hdata)
  toComplex64 := toType_congr c .complex64 htype hdata
  toComplex128 := toType_congr c .complex128 htype hdata

/-! ## A value, and a pointer to it -/

namespace Value

/-- The type of a value. -/
def type : Value → CppType
  | int32 _ => .int32
  | int64 _ => .int64
  | int16 _ => .int16
  | int8 _ => .int8
  | uint32 _ => .uint32
  | uint64 _ => .uint64
  | uint16 _ => .uint16
  | uint8 _ => .uint8
  | float _ => .float
  | double _ => .double
  | fp16 _ => .fp16
  | bfloat16 _ => .bfloat16
  | bool _ => .bool

/-- The data type for the type of a value. -/
def dataType : Value → DataType
  | int32 _ => .DT_INT32
  | int64 _ => .DT_INT64
  | int16 _ => .DT_INT16
  | int8 _ => .DT_INT8
  | uint32 _ => .DT_UINT32
  | uint64 _ => .DT_UINT64
  | uint16 _ => .DT_UINT16
  | uint8 _ => .DT_UINT8
  | float _ => .DT_FLOAT
  | double _ => .DT_DOUBLE
  | fp16 _ => .DT_FLOAT16
  | bfloat16 _ => .DT_BF16
  | bool _ => .DT_BOOL

/-- The object representation of a value. -/
def bits : (value : Value) → BitVec value.type.width
  | int32 value => value
  | int64 value => value
  | int16 value => value
  | int8 value => value
  | uint32 value => value
  | uint64 value => value
  | uint16 value => value
  | uint8 value => value
  | float value => value
  | double value => value
  | fp16 value => value
  | bfloat16 value => value
  | bool value => ofBool value

/-- `aclScalar(&value, dtype)`, with the value at the address `data` of a memory. -/
def byAddress (value : Value) (junk mem : Mem) (data : Nat) : Option AclScalar :=
  ofData junk (mem.store data value.type.size value.bits.toNat) data value.dataType

/-- No half precision number, and no `bfloat16` but the zero with a plus. -/
def Kept (value : Value) : Prop :=
  value.type ≠ .fp16 ∧ (value.type = .bfloat16 → value.bits.toNat = 0)

theorem byAddress_eq (value : Value) (junk mem : Mem) (data : Nat) :
    value.byAddress junk mem data =
      some ⟨value.dataType, junk.store 0 value.type.size value.bits.toNat⟩ := by
  have hlt : value.bits.toNat < 256 ^ value.type.size := by
    rw [CppType.width_eq]
    exact value.bits.isLt
  have hload := Mem.load_store_of_lt (m := mem) (a := data) hlt
  unfold byAddress ofData
  cases value <;> exact congrArg some (congrArg _ (congrArg _ hload))

end Value

theorem getData_store (junk junk' : Mem) {n k v v' : Nat} (h : n ≤ k) (hv : v % 256 ^ n = v') :
    ∀ i, i < n → junk.store 0 k v i = junk'.store 0 n v' i := by
  intro i hi
  have hload : (junk.store 0 k v).load 0 n = (junk'.store 0 n v').load 0 n := by
    rw [Mem.load_store_of_le _ _ h, Mem.load_store, ← hv, Nat.mod_mod]
  have hbyte := Mem.load_inj hload i hi
  rwa [Nat.zero_add] at hbyte

theorem assigned_agree (c : Casts) (junk junk' : Mem) {t : DataType} {w : Nat} (x : BitVec w)
    (hw : w / 8 = typeSize t) (hx : x.toNat < 256 ^ (w / 8)) :
    Agree c (assigned junk t x) ⟨t, junk'.store 0 (w / 8) x.toNat⟩ := by
  refine agree_of_data c rfl fun i hi => ?_
  exact getData_store junk junk' le_rfl (Nat.mod_eq_of_lt hx) i (hi.trans_eq hw.symm)

theorem bfloat16ToFloat_low (x : BitVec 16) : (bfloat16ToFloat x).toNat % 256 ^ 2 = 0 := by
  unfold bfloat16ToFloat
  rw [BitVec.toNat_append, BitVec.toNat_ofNat, Nat.zero_mod, Nat.or_zero, Nat.shiftLeft_eq]
  exact Nat.mul_mod_left _ _

/-- The low half of a `float` that a `bfloat16` was converted to is zero. -/
theorem bfloat16_agree_iff (c : Casts) (junk junk' : Mem) (x : BitVec 16) :
    Agree c (assigned junk .DT_BF16 (bfloat16ToFloat x))
      ⟨.DT_BF16, junk'.store 0 CppType.bfloat16.size x.toNat⟩ ↔ x.toNat = 0 := by
  constructor
  · intro h
    have hload : (junk.store 0 4 (bfloat16ToFloat x).toNat).load 0 2 =
        (junk'.store 0 2 x.toNat).load 0 2 := by
      apply Mem.load_congr
      intro i hi
      rw [Nat.zero_add]
      exact h.data i hi
    rw [Mem.load_store_of_le _ _ (by decide), bfloat16ToFloat_low, Mem.load_store] at hload
    exact (Nat.mod_eq_of_lt x.isLt).symm.trans hload.symm
  · intro h
    refine agree_of_data c rfl fun i hi => ?_
    exact getData_store junk junk' (by decide) ((bfloat16ToFloat_low x).trans h.symm) i hi

theorem constructors_agree_iff (c : Casts) (value : Value) (junk junk' mem : Mem) (data : Nat) :
    (∃ s, value.byAddress junk' mem data = some s ∧ Agree c (ofValue junk value) s) ↔
      value.Kept := by
  rw [value.byAddress_eq]
  simp only [Option.some.injEq, exists_eq_left']
  have hlt := value.bits.isLt
  rw [← CppType.width_eq] at hlt
  cases value with
  | fp16 x =>
    have hne : DataType.DT_FLOAT ≠ DataType.DT_FLOAT16 := by decide
    exact iff_of_false (fun h => hne h.dataType) fun h => h.1 rfl
  | bfloat16 x =>
    have hkept : Value.Kept (.bfloat16 x) ↔ x.toNat = 0 :=
      ⟨fun h => h.2 rfl, fun h => ⟨nofun, fun _ => h⟩⟩
    rw [hkept]
    exact bfloat16_agree_iff c junk junk' x
  | _ x =>
    refine iff_of_true ?_ ⟨nofun, nofun⟩
    exact assigned_agree c junk junk' _ rfl hlt

/-- The number one, as a `bfloat16`: its scalar reads as zero. -/
theorem constructors_differ :
    ¬ ∃ s, (Value.bfloat16 0x3F80).byAddress (fun _ => 0) (fun _ => 0) 0 = some s ∧
      Agree (fun _ _ _ => 0) (ofValue (fun _ => 0) (Value.bfloat16 0x3F80)) s := by
  intro ⟨s, hs, h⟩
  rw [Value.byAddress_eq] at hs
  cases hs
  exact absurd ((bfloat16_agree_iff _ _ _ _).mp h) (by decide)

end AclScalar

end OpBase
