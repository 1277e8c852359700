import OpBase.Fp16.FromInt
import OpBase.Fp16.SaturatingArith

/-!
# From the integer types in `op_common`

`fp16_t::operator=` of `op_common/op_host/util/fp16.cpp` for the integers of 8, 16 and 32
bits. Each width has an encoder for a sign and a magnitude, and the one of 32 bits alone
looks at the exponent that the rounding left: a `uint16_t` can round to `2 ^ 16`, too.

> `assign_saturates_iff`: the result is the value rounded to nearest, ties to even, and at
> most 65504, but for a `uint16_t` from 65520 on and for the least `int32_t`.
-/

namespace OpBase.Fp16.OpCommon

open OpBase.Lib
open FloatFormat (half)

/-- `EncodeFp16FromUint8`; `none` where its loop does not end. -/
def encodeFp16FromUint8 (sign mantissa : Nat) : Option Nat :=
  if mantissa ≠ 0 then
    (shiftToHideBit 17 mantissa FP16_MAN_LEN).map fun (mantissa, exp) =>
      fp16Constructor sign ((exp + FP16_EXP_BIAS) % 2 ^ 16) mantissa
  else some (fp16Constructor sign 0 mantissa)

/-- `fp16_t::operator=(const int8_t &)`; `std::abs` works on an `int`. -/
def assignInt8 (iVal : Int8) : Option Nat :=
  let sRet := (iVal.toUInt8.toNat &&& 0x80) >>> 7
  let mRet := iVal.toUInt8.toNat &&& INT8_T_MAX
  let mRet := if sRet ≠ 0 then iVal.toInt.natAbs else mRet
  encodeFp16FromUint8 sRet mRet

/-- `fp16_t::operator=(const uint8_t &)` -/
def assignUInt8 (uiVal : UInt8) : Option Nat := encodeFp16FromUint8 0 uiVal.toNat

/-- `EncodeFp16FromUint16` -/
def encodeFp16FromUint16 (sign mRet : Nat) : Nat :=
  if mRet = 0 then 0 else construct sign (Fp16.round mRet)

/-- `fp16_t::operator=(const int16_t &)` -/
def assignInt16 (iVal : Int16) : Nat :=
  if iVal = 0 then 0
  else
    let sRet := iVal.toUInt16.toNat >>> 15
    let uiVal := if sRet ≠ 0 then (-iVal).toUInt16.toNat else iVal.toUInt16.toNat
    encodeFp16FromUint16 sRet (uiVal &&& FP32_ABS_MAX)

/-- `fp16_t::operator=(const uint16_t &)` -/
def assignUInt16 (uiVal : UInt16) : Nat := encodeFp16FromUint16 0 uiVal.toNat

/-- `if (eRet >= FP16_MAX_EXP)` -/
def clampExp (me : Nat × Int) : Nat × Int :=
  if (FP16_MAX_EXP : Int) ≤ me.2 then (FP16_MAX_MAN, (FP16_MAX_EXP : Int) - 1) else me

/-- `EncodeFp16FromUint32` -/
def encodeFp16FromUint32 (sign mTmp : Nat) : Nat :=
  if mTmp = 0 then 0
  else
    let len := getManBitLength mTmp
    construct sign (if 11 < len then clampExp (roundLong mTmp len) else roundShort mTmp len)

/-- `fp16_t::operator=(const int32_t &)`, the negation of the least value being itself. -/
def assignInt32 (iVal : Int32) : Nat :=
  if iVal = 0 then 0
  else
    let sRet := iVal.toUInt32.toNat >>> 31
    let uiVal := if sRet ≠ 0 then (-iVal).toUInt32.toNat else iVal.toUInt32.toNat
    encodeFp16FromUint32 sRet (uiVal &&& FP32_ABS_MAX)

/-- `fp16_t::operator=(const uint32_t &)` -/
def assignUInt32 (uiVal : UInt32) : Nat := encodeFp16FromUint32 0 uiVal.toNat

/-! ## From which integer on the largest number is passed -/

/-- `w` is the value rounded to nearest, ties to even, and cut to the finite numbers. -/
def Saturated (v : Int) (w : Nat) : Prop :=
  half.negative w = decide (v < 0) ∧ SaturatesTo v.natAbs w

theorem saturatesTo_natCast {man w : Nat} : SaturatesTo man w ↔
    ∃ n, NearestEven (grid 10 half.unit) man n ∧ half.code w = min n (half.infinity - 1) := by
  unfold SaturatesTo
  rw [abs_of_nonneg (Nat.cast_nonneg man)]

theorem nearest_below : NearestEven (grid 10 half.unit) (65519 : Nat) (half.infinity - 1) :=
  @nearest_cut 65519 5 (by decide) (by decide)

theorem nearest_above : NearestEven (grid 10 half.unit) (65520 : Nat)
    half.infinity :=
  @nearest_cut 65520 5 (by decide) (by decide)

theorem nearest_lt_infinity {man n : Nat} (hn : NearestEven (grid 10 half.unit) man n) :
    n < half.infinity ↔ man < 65520 := by
  have hmono := grid_strictMono 10 half.unit_pos
  constructor
  · intro hlt
    by_contra hge
    have hle : half.infinity ≤ n :=
      nearest_above.le_of_le hmono hn (by exact_mod_cast Nat.not_lt.mp hge)
    omega
  · intro hlt
    have hle : n ≤ half.infinity - 1 :=
      hn.le_of_le hmono nearest_below (by exact_mod_cast Nat.lt_succ_iff.mp hlt)
    have hpos : 0 < half.infinity := by decide
    omega

variable {v : Int}

theorem saturated_iff {w : Nat} (h : Rounded v w) : Saturated v w ↔ v.natAbs < 65520 := by
  obtain ⟨hsign, n, hn, hcode⟩ := h
  unfold Saturated
  rw [saturatesTo_natCast, ← nearest_lt_infinity hn]
  have hpos : 0 < half.infinity := by decide
  constructor
  · intro ⟨_, m, hm, hcode'⟩
    obtain rfl := hm.unique (grid_strictMono 10 half.unit_pos) hn
    omega
  · intro hlt
    exact ⟨hsign, n, hn, by omega⟩

/-! ## The widths -/

theorem encodeFp16FromUint8_rounded {s man : Nat} (hzero : v = 0 → s = 0)
    (hs : s = if v < 0 then 1 else 0) (hman : man = v.natAbs) (hlt : man < 2 ^ 8) :
    ∃ w, encodeFp16FromUint8 s man = some w ∧ Rounded v w := by
  unfold encodeFp16FromUint8
  by_cases h0 : man = 0
  · have hv : v = 0 := by omega
    rw [if_neg (not_not.mpr h0), h0, hzero hv, hv]
    exact ⟨0, rfl, rounded_zero⟩
  · rw [if_pos h0]
    obtain ⟨w, hw, hr⟩ := shiftToHideBit_roundShort (s := s) h0 hlt (by rw [hs]; split <;> decide)
    refine ⟨w, hw, ?_⟩
    rw [hs, decide_sign, hman] at hr
    exact hr

theorem assignInt8_rounded (v : Int8) : ∃ w, assignInt8 v = some w ∧ Rounded v.toInt w := by
  obtain ⟨hs, hm⟩ := int8_parts v
  have hlo := v.le_toInt
  have hhi := v.toInt_lt
  have hman : (if (if v.toInt < 0 then 1 else 0) ≠ 0 then v.toInt.natAbs
      else v.toUInt8.toNat &&& INT8_T_MAX) = v.toInt.natAbs := by
    by_cases hi : v.toInt < 0
    · simp [hi]
    · rw [if_neg hi] at hm
      simp only [hi, if_false, ne_eq, not_true_eq_false]
      omega
  unfold assignInt8
  simp only [hs, hman]
  exact encodeFp16FromUint8_rounded (fun hv => by rw [hv]; rfl) rfl rfl (by omega)

theorem assignUInt8_rounded (v : UInt8) : ∃ w, assignUInt8 v = some w ∧ Rounded v.toNat w :=
  encodeFp16FromUint8_rounded (fun _ => rfl) (by rw [if_neg (by omega)]) (by omega) v.toNat_lt

theorem assignInt16_eq (v : Int16) : assignInt16 v = Fp16.assignInt16 0 v := by
  unfold assignInt16 Fp16.assignInt16 encodeFp16FromUint16
  simp only [ne_eq, ite_not]

theorem assignUInt16_eq (v : UInt16) : assignUInt16 v = Fp16.assignUInt16 v := by
  unfold assignUInt16 Fp16.assignUInt16 encodeFp16FromUint16
  by_cases h0 : v = 0
  · rw [if_pos h0, h0]
    rfl
  · rw [if_neg h0]
    exact if_neg (fun h => h0 (UInt16.toNat_inj.mp h))

theorem code_construct_clampExp {x : ℚ} {me : Nat × Int} (h : PlacesNearest x me) {s : Nat}
    (hs : s < 2) : half.negative (construct s (clampExp me)) = decide (s = 1) ∧
      ∃ n, NearestEven (grid 10 half.unit) x n ∧ half.code (construct s (clampExp me))
          = min n (half.infinity - 1) := by
  by_cases hexp : (31 : Int) ≤ me.2
  · have hw : construct s (clampExp me) = fp16Constructor s 30 0x3FF := by
      unfold clampExp
      rw [if_pos (show (FP16_MAX_EXP : Int) ≤ me.2 from hexp)]
      rfl
    obtain ⟨e, he, hlo, -, hn⟩ := h
    rw [hw]
    refine ⟨negative_fp16Constructor hs (by decide) _, _, hn, ?_⟩
    rw [code_fp16Constructor hs (by decide), half_infinity]
    omega
  · have hw : clampExp me = me := if_neg hexp
    obtain ⟨hsign, n, hn, hcode⟩ := construct_roundsTo h (by omega) (fun h => by omega) hs
    obtain ⟨e, he, -, hhi, hn'⟩ := h
    have hnum := hn.unique (grid_strictMono 10 half.unit_pos) hn'
    rw [hw]
    refine ⟨hsign, n, hn, ?_⟩
    rw [hcode, half_infinity]
    omega

theorem encodeFp16FromUint32_saturated {s man : Nat} (hne : v ≠ 0) (hs : s = if v < 0 then 1 else 0)
    (hman : man = v.natAbs) (hlt : man < 2 ^ 32) :
    Saturated v (encodeFp16FromUint32 s man) := by
  have hs2 : s < 2 := by rw [hs]; split <;> decide
  have hplaces := round_places (show man ≠ 0 by omega) hlt
  -- a short number has an exponent that the clamp would leave alone
  have hclamp : encodeFp16FromUint32 s man = construct s (clampExp (Fp16.round man)) := by
    unfold encodeFp16FromUint32 Fp16.round
    rw [if_neg (by omega)]
    dsimp only
    split
    · rfl
    next hlen =>
      have hexp : ¬ (FP16_MAX_EXP : Int) ≤ (roundShort man (getManBitLength man)).2 := by
        show ¬ (31 : Int) ≤ 15 + ((getManBitLength man : Int) - 1)
        omega
      unfold clampExp
      rw [if_neg hexp]
  obtain ⟨hsign, hcode⟩ := code_construct_clampExp hplaces hs2
  rw [hclamp]
  refine ⟨?_, ?_⟩
  · rw [hsign, hs, decide_sign]
  · rw [saturatesTo_natCast, ← hman]
    exact hcode

theorem saturated_zero : Saturated 0 0 := (saturated_iff rounded_zero).mpr (by decide)

theorem assignInt32_saturated_iff (v : Int32) :
    Saturated v.toInt (assignInt32 v) ↔ v.toInt ≠ -2 ^ 31 := by
  have hrange : -2 ^ 31 ≤ v.toInt ∧ v.toInt < 2 ^ 31 := ⟨v.le_toInt, v.toInt_lt⟩
  unfold assignInt32
  by_cases h0 : v = 0
  · rw [if_pos h0, h0]
    exact ⟨fun _ => by decide, fun _ => saturated_zero⟩
  · obtain ⟨hne, hs, hman⟩ := int32_parts h0
    simp only [h0, if_false, hman]
    rw [hs]
    by_cases hmin : v.toInt = -2 ^ 31
    · refine ⟨fun hr => ?_, fun h => absurd hmin h⟩
      -- the mask takes the only bit, and a zero has no sign
      have habs : v.toInt.natAbs % 2 ^ 31 = 0 := by omega
      have hsign := hr.1
      rw [habs, hmin] at hsign
      exact absurd hsign (by decide)
    · refine ⟨fun _ => hmin, fun _ => encodeFp16FromUint32_saturated hne rfl ?_ (by omega)⟩
      exact Nat.mod_eq_of_lt (by omega)

theorem assignUInt32_saturated (v : UInt32) : Saturated v.toNat (assignUInt32 v) := by
  unfold assignUInt32
  by_cases h0 : v.toNat = 0
  · rw [h0]
    exact saturated_zero
  · exact encodeFp16FromUint32_saturated (by omega) (by rw [if_neg (by omega)]) (by omega)
      v.toNat_lt

/-! ## The conversions -/

/-- A value of one of the six types. -/
inductive IntValue where
  | int8 (v : Int8)
  | uint8 (v : UInt8)
  | int16 (v : Int16)
  | uint16 (v : UInt16)
  | int32 (v : Int32)
  | uint32 (v : UInt32)
deriving DecidableEq

def IntValue.toInt : IntValue → Int
  | .int8 v => v.toInt
  | .uint8 v => v.toNat
  | .int16 v => v.toInt
  | .uint16 v => v.toNat
  | .int32 v => v.toInt
  | .uint32 v => v.toNat

/-- The overload that the type of the value selects. -/
def IntValue.assign : IntValue → Option Nat
  | .int8 v => assignInt8 v
  | .uint8 v => assignUInt8 v
  | .int16 v => some (assignInt16 v)
  | .uint16 v => some (assignUInt16 v)
  | .int32 v => some (assignInt32 v)
  | .uint32 v => some (assignUInt32 v)

/-- The values for which the overload goes right. -/
def IntValue.Encodable : IntValue → Prop
  | .uint16 v => v.toNat < 65520
  | .int32 v => v.toInt ≠ -2 ^ 31
  | _ => True

/-- The conversions round to nearest, ties to even, and stay finite, but for a `uint16_t` that
rounds to `2 ^ 16`, and for the least `int32_t`. -/
theorem assign_saturates_iff (v : IntValue) :
    (∃ w, v.assign = some w ∧ Saturated v.toInt w) ↔ v.Encodable := by
  have hsome : ∀ (i : Int) (r : Nat), (∃ w, some r = some w ∧ Saturated i w) ↔ Saturated i r :=
    fun i r => ⟨fun ⟨w, hw, h⟩ => Option.some.inj hw ▸ h, fun h => ⟨r, rfl, h⟩⟩
  cases v with
  | int8 v =>
    obtain ⟨w, hw, hr⟩ := assignInt8_rounded v
    have hlo := v.le_toInt
    have hhi := v.toInt_lt
    exact iff_of_true ⟨w, hw, (saturated_iff hr).mpr (by omega)⟩ trivial
  | uint8 v =>
    obtain ⟨w, hw, hr⟩ := assignUInt8_rounded v
    have hlt := v.toNat_lt
    exact iff_of_true ⟨w, hw, (saturated_iff hr).mpr (by omega)⟩ trivial
  | int16 v =>
    have hr := assignInt16_rounded 0 v
    have hlo := v.le_toInt
    have hhi := v.toInt_lt
    rw [← assignInt16_eq] at hr
    exact iff_of_true ⟨_, rfl, (saturated_iff hr).mpr (by omega)⟩ trivial
  | uint16 v =>
    have hr := assignUInt16_rounded v
    rw [← assignUInt16_eq] at hr
    exact (hsome _ _).trans ((saturated_iff hr).trans (by rw [Int.natAbs_natCast]; exact Iff.rfl))
  | int32 v => exact (hsome _ _).trans (assignInt32_saturated_iff v)
  | uint32 v => exact iff_of_true ⟨_, rfl, assignUInt32_saturated v⟩ trivial

/-- The largest `uint16_t` becomes infinity, and `INT32_MIN` zero. -/
theorem assign_not_saturated :
    (IntValue.uint16 65535).assign = some 0x7C00 ∧ ¬ Saturated 65535 0x7C00 ∧
      (IntValue.int32 (-2 ^ 31)).assign = some 0 ∧ ¬ Saturated (-2 ^ 31) 0 := by
  have hword : assignUInt16 65535 = 0x7C00 := by
    have hlen : getManBitLength 65535 = 16 := by simp [getManBitLength]
    have hround : Fp16.round 65535 = (2 ^ 10, 31) := by
      unfold Fp16.round
      simp only [hlen]
      unfold roundLong
      simp only [truncMask_eq, cutBit_iterate]
      exact @carryDown_eq (2 ^ 11) 30 le_rfl (by decide)
    show encodeFp16FromUint16 0 65535 = _
    unfold encodeFp16FromUint16
    rw [hround]
    rfl
  have hr : Rounded 65535 0x7C00 := by
    have h := assignUInt16_rounded 65535
    rw [← assignUInt16_eq, hword] at h
    exact h
  refine ⟨congrArg some hword, fun h => ?_, rfl, fun h => ?_⟩
  · exact absurd ((saturated_iff hr).mp h) (by decide)
  · exact absurd h.1 (by decide)

end OpBase.Fp16.OpCommon
