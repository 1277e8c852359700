import OpBase.Fp16.Basic

/-!
# From the integer types

`fp16_t::operator=` for the eight integer types. The ones of 16 and 32 bits share a body,
whose two branches are `roundLong` and `roundShort`; the ones of 8 bits have no number that
needs rounding, the ones of 64 bits hand over to 32.

> `assign_integers`: the result is the value rounded to nearest, ties to even, but for the
> least `int8_t` and the least `int32_t`, which have no magnitude in the masks that take
> the sign off.
-/

namespace OpBase.Fp16

open OpBase.Lib
open FloatFormat (half)

def INT8_T_MAX : Nat := 0x7F

/-- `while ((mRet & FP16_MAN_HIDE_BIT) == 0)`, with `uint16_t` variables; `none` when all
bits have left the word, for then it does not end. -/
def shiftToHideBit : Nat → Nat → Nat → Option (Nat × Nat)
  | 0, _, _ => none
  | n + 1, mRet, eRet =>
    if mRet &&& FP16_MAN_HIDE_BIT = 0 then
      shiftToHideBit n ((mRet <<< 1) % 2 ^ 16) ((eRet + (2 ^ 16 - 1)) % 2 ^ 16)
    else some (mRet, eRet)

/-- `fp16_t::operator=(const int8_t &)` -/
def assignInt8 (iVal : Int8) : Option Nat :=
  let sRet := (iVal.toUInt8.toNat &&& 0x80) >>> 7
  let mRet := iVal.toUInt8.toNat &&& INT8_T_MAX
  if mRet = 0 then some (fp16Constructor sRet 0 mRet)
  else
    let mRet := if sRet ≠ 0 then iVal.toInt.natAbs else mRet
    (shiftToHideBit 17 mRet FP16_MAN_LEN).map fun (mRet, eRet) =>
      fp16Constructor sRet ((eRet + FP16_EXP_BIAS) % 2 ^ 16) mRet

/-- `fp16_t::operator=(const uint8_t &)` -/
def assignUInt8 (uiVal : UInt8) : Option Nat :=
  if uiVal.toNat ≠ 0 then
    (shiftToHideBit 17 uiVal.toNat FP16_MAN_LEN).map fun (mRet, eRet) =>
      fp16Constructor 0 ((eRet + FP16_EXP_BIAS) % 2 ^ 16) mRet
  else some (fp16Constructor 0 0 uiVal.toNat)

/-- The body of `for (int i = 0; i < eTmp; i++)`. -/
def cutBit (me : Nat × Int) : Nat × Int := (me.1 >>> 1, me.2 + 1)

/-- `len > 11`: mantissa and exponent of a number that has bits to cut off. -/
def roundLong (mTmp len : Nat) : Nat × Int :=
  let eTmp := len - 11
  let truncMask := (fun mask => (mask <<< 1) + 1)^[eTmp - 1] 1
  let mTrunc := ((mTmp &&& truncMask) <<< (FP32_BIT_LENGTH - eTmp)) % 2 ^ 32
  let cut := cutBit^[eTmp] (mTmp, ((FP16_EXP_BIAS + FP16_MAN_LEN : Nat) : Int))
  carryDown (roundTrunc mTrunc cut.1 0) cut.2

/-- `len <= 11` -/
def roundShort (mTmp len : Nat) : Nat × Int :=
  (mTmp <<< (11 - len), (FP16_EXP_BIAS : Int) + ((len : Int) - 1))

/-- The last lines of the bodies: the casts to `uint16_t` and `FP16_CONSTRUCTOR`. -/
def construct (sRet : Nat) (me : Nat × Int) : Nat :=
  fp16Constructor sRet (me.2 % 2 ^ 16).toNat (me.1 % 2 ^ 16)

/-- Mantissa and exponent by the length, in the bodies of 16 bits. -/
def round (mTmp : Nat) : Nat × Int :=
  let len := getManBitLength mTmp
  if 11 < len then roundLong mTmp len else roundShort mTmp len

/-- `if (eRet >= FP16_MAX_EXP)` -/
def clampExp (me : Nat × Int) : Nat × Int :=
  if (FP16_MAX_EXP : Int) ≤ me.2 then (0, FP16_MAX_EXP) else me

/-- Mantissa and exponent by the length, in the bodies of 32 bits. -/
def roundClamped (mTmp : Nat) : Nat × Int :=
  let len := getManBitLength mTmp
  if 11 < len then clampExp (roundLong mTmp len) else roundShort mTmp len

/-- `fp16_t::operator=(const int16_t &)`; `val` is the pattern before. -/
def assignInt16 (val : Nat) (iVal : Int16) : Nat :=
  if iVal = 0 then 0
  else
    let sRet := iVal.toUInt16.toNat >>> 15
    let uiVal := if sRet ≠ 0 then (-iVal).toUInt16.toNat else iVal.toUInt16.toNat
    let mTmp := uiVal &&& FP32_ABS_MAX
    if mTmp ≠ 0 then construct sRet (round mTmp) else val

/-- `fp16_t::operator=(const uint16_t &)`. What it does to an invalid old pattern it
overwrites at once. -/
def assignUInt16 (uiVal : UInt16) : Nat :=
  if uiVal = 0 then 0 else construct 0 (round uiVal.toNat)

/-- `fp16_t::operator=(const int32_t &)`, the negation of the least value being itself. -/
def assignInt32 (iVal : Int32) : Nat :=
  if iVal = 0 then 0
  else
    let sRet := iVal.toUInt32.toNat >>> 31
    let uiVal := if sRet ≠ 0 then (-iVal).toUInt32.toNat else iVal.toUInt32.toNat
    construct sRet (roundClamped (uiVal &&& FP32_ABS_MAX))

/-- `fp16_t::operator=(const uint32_t &)` -/
def assignUInt32 (uiVal : UInt32) : Nat :=
  if uiVal = 0 then 0 else construct 0 (roundClamped uiVal.toNat)

/-- `fp16_t::operator=(const int64_t &)` -/
def assignInt64 (iVal : Int64) : Nat :=
  if iVal.toInt < -2 ^ 31 then fp16Constructor 1 FP16_MAX_EXP 0
  else if 2 ^ 31 - 1 < iVal.toInt then fp16Constructor 0 FP16_MAX_EXP 0
  else assignInt32 (Int32.ofInt iVal.toInt)

/-- `fp16_t::operator=(const uint64_t &)` -/
def assignUInt64 (uiVal : UInt64) : Nat :=
  if 2 ^ 32 - 1 < uiVal.toNat then fp16Constructor 0 FP16_MAX_EXP 0
  else assignUInt32 (UInt32.ofNat uiVal.toNat)

/-! ## Mantissa and exponent -/

/-- Mantissa, with its hidden bit, and exponent field of the number nearest to `x`. -/
def PlacesNearest (x : ℚ) (me : Nat × Int) : Prop :=
  ∃ e : Nat, me.2 = e + 1 ∧ 2 ^ 10 ≤ me.1 ∧ me.1 < 2 ^ 11 ∧
    NearestEven (grid 10 half.unit) x (e * 2 ^ 10 + me.1)

theorem truncMask_eq (k : Nat) : (fun mask => (mask <<< 1) + 1)^[k] 1 = 2 ^ (k + 1) - 1 := by
  induction k with
  | zero => rfl
  | succ k ih =>
    have := Nat.two_pow_pos (k + 1)
    rw [Function.iterate_succ_apply', ih, Nat.shiftLeft_eq, Nat.pow_succ 2 (k + 1)]
    omega

/-- Cutting `k` bits divides by `2 ^ k`. -/
theorem cutBit_iterate (man : Nat) (exp : Int) (k : Nat) :
    cutBit^[k] (man, exp) = (man / 2 ^ k, exp + k) := by
  induction k with
  | zero => simp
  | succ k ih =>
    rw [Function.iterate_succ_apply', ih]
    show ((man / 2 ^ k) >>> 1, exp + k + 1) = _
    rw [Nat.shiftRight_eq_div_pow, Nat.div_div_eq_div_mul, ← Nat.pow_succ]
    push_cast
    rw [Int.add_assoc]

variable {man : Nat}

/-- Cutting bits and rounding is nearest on the grid. -/
theorem nearest_cut {d : Nat} (hlo : 2 ^ 10 ≤ man / 2 ^ d) (hhi : man / 2 ^ d < 2 ^ 11) :
    NearestEven (grid 10 half.unit) man
      ((24 + d) * 2 ^ 10 + man / 2 ^ d + roundUp (man / 2 ^ d) (man % 2 ^ d) d) := by
  refine nearestEven_cut (a := 24) (D := 0) (by decide) half.unit_pos ?_ (mul_one _)
    (Nat.add_zero _).symm (Or.inl hlo) hhi
  rw [mul_assoc, two_pow_mul_unit, mul_one]

/-- Rounding a number of more than eleven bits. -/
theorem roundLong_places {d : Nat} (hd : 1 ≤ d) (hd' : d ≤ 21) (hlo : 2 ^ 10 ≤ man / 2 ^ d)
    (hhi : man / 2 ^ d < 2 ^ 11) : PlacesNearest man (roundLong man (11 + d)) ∧
      (roundLong man (11 + d)).2 ≤ 26 + d ∧
      ((roundLong man (11 + d)).2 = 26 + d → (roundLong man (11 + d)).1 = 2 ^ 10) := by
  have hn := nearest_cut hlo hhi
  have hmod : man % 2 ^ d < 2 ^ d := Nat.mod_lt _ (Nat.two_pow_pos d)
  have hword : man % 2 ^ d * 2 ^ (32 - d) < 2 ^ 32 :=
    calc man % 2 ^ d * 2 ^ (32 - d) < 2 ^ d * 2 ^ (32 - d) :=
          Nat.mul_lt_mul_of_pos_right hmod (Nat.two_pow_pos _)
      _ = 2 ^ 32 := by rw [← Nat.pow_add, Nat.add_sub_cancel' (by omega)]
  have hup : roundUp (man / 2 ^ d) (man % 2 ^ d * 2 ^ (32 - d)) 32 =
      roundUp (man / 2 ^ d) (man % 2 ^ d) d := by
    have := roundUp_mul_two_pow (man / 2 ^ d) (man % 2 ^ d) d (32 - d)
    rwa [Nat.add_sub_cancel' (by omega)] at this
  have hround : roundLong man (11 + d) = carryDown
      (man / 2 ^ d + roundUp (man / 2 ^ d) (man % 2 ^ d) d) (25 + d) := by
    unfold roundLong
    simp only [Nat.add_sub_cancel_left, truncMask_eq, cutBit_iterate, FP32_BIT_LENGTH]
    rw [Nat.sub_add_cancel hd, Nat.and_two_pow_sub_one_eq_mod, Nat.shiftLeft_eq,
      Nat.mod_eq_of_lt hword, roundTrunc_eq hword, hup, pow_zero, Nat.div_one]
    rfl
  have hle := roundUp_le_one (man / 2 ^ d) (man % 2 ^ d) d
  rw [hround, carryDown_eq (by omega) (by omega)]
  generalize roundUp (man / 2 ^ d) (man % 2 ^ d) d = up at *
  generalize man / 2 ^ d = q at *
  by_cases hcarry : q + up = 2 ^ 11
  · -- the carry makes it the first number of the next exponent
    rw [if_pos hcarry]
    have hnum : (24 + d) * 2 ^ 10 + q + up = (25 + d) * 2 ^ 10 + 2 ^ 10 := by
      rw [Nat.add_assoc, hcarry]
      omega
    exact ⟨⟨25 + d, by push_cast; rfl, le_rfl, show 2 ^ 10 < 2 ^ 11 by decide, hnum ▸ hn⟩,
      by show (25 + d + 1 : Int) ≤ _; omega, fun _ => rfl⟩
  · rw [if_neg hcarry]
    refine ⟨⟨24 + d, by push_cast; omega, Nat.le_add_right_of_le hlo, by show q + up < _; omega,
      ?_⟩, by show (25 + d : Int) ≤ _; omega, fun h => ?_⟩
    · rw [Nat.add_assoc] at hn
      exact hn
    · have : (25 + d : Int) = 26 + d := h
      omega

theorem roundShort_places {len : Nat} (hlo : 2 ^ 10 ≤ man * 2 ^ (11 - len))
    (hhi : man * 2 ^ (11 - len) < 2 ^ 11) (hlen : len ≤ 11) :
    PlacesNearest man (roundShort man len) := by
  have hexp : (15 : Int) + (len - 1) = (13 + len : Nat) + 1 := by omega
  unfold roundShort
  rw [Nat.shiftLeft_eq]
  refine ⟨13 + len, hexp, hlo, hhi, ?_⟩
  have hn := nearestEven_place (p := 10) (e := 13 + len) (m := man * 2 ^ (11 - len)) (r := 0)
    (t := 0) (u := half.unit) (x := man) (by decide) half.unit_pos
    (Or.inl hlo) hhi (by decide) ?_
  · have hround : roundUp (man * 2 ^ (11 - len)) 0 0 = 0 := if_neg (by omega)
    rwa [hround, Nat.add_zero] at hn
  · have hpow : (2 : ℚ) ^ (11 - len) * 2 ^ (13 + len) = 2 ^ 24 := by
      rw [← pow_add]
      congr 1
      omega
    push_cast
    rw [zero_div, add_zero, mul_assoc (man : ℚ), hpow, mul_assoc, two_pow_mul_unit, mul_one]

variable {me : Nat × Int}

/-- A half made of a nearest place is the rounded one. -/
theorem construct_roundsTo {x : ℚ} (h : PlacesNearest x me) (hexp : me.2 ≤ 31)
    (hman : me.2 = 31 → me.1 = 2 ^ 10) {s : Nat} (hs : s < 2) :
    half.RoundsTo (decide (s = 1)) x (construct s me) := by
  obtain ⟨e, he, hlo, hhi, hn⟩ := h
  obtain ⟨m, exp⟩ := me
  simp only [] at *
  subst he
  have hcast : Int.toNat (((e : Int) + 1) % 2 ^ 16) = e + 1 := by omega
  have hw : construct s (m, (e : Int) + 1) = fp16Constructor s (e + 1) m := by
    unfold construct
    simp only []
    rw [hcast, Nat.mod_eq_of_lt (by omega)]
  rw [hw]
  refine ⟨negative_fp16Constructor hs (by omega) m, _, hn, ?_⟩
  have hcode : (e + 1) * 2 ^ 10 + m % 2 ^ 10 = e * 2 ^ 10 + m := by omega
  have hle : e * 2 ^ 10 + m ≤ 31 * 2 ^ 10 := by
    by_cases htop : e = 30
    · rw [htop, hman (by omega)]
      decide
    · have := Nat.mul_le_mul_right (2 ^ 10) (show e ≤ 29 by omega)
      exact (Nat.add_le_add this hhi.le).trans (by decide)
  rw [code_fp16Constructor hs (by omega), hcode, half_infinity, Nat.min_eq_left hle]

theorem construct_clampExp_roundsTo {x : ℚ} (h : PlacesNearest x me) {s : Nat} (hs : s < 2) :
    half.RoundsTo (decide (s = 1)) x (construct s (clampExp me)) := by
  unfold clampExp FP16_MAX_EXP
  by_cases hexp : (31 : Int) ≤ me.2
  · rw [if_pos (by exact_mod_cast hexp)]
    obtain ⟨e, he, hlo, -, hn⟩ := h
    have hw : construct s (0, ((31 : Nat) : Int)) = fp16Constructor s 31 0 := rfl
    rw [hw]
    refine ⟨negative_fp16Constructor hs (by decide) 0, _, hn, ?_⟩
    rw [code_fp16Constructor hs (by decide), half_infinity]
    omega
  · rw [if_neg (by exact_mod_cast hexp)]
    exact construct_roundsTo h (by omega) (fun h => by omega) hs

/-! ## The lengths -/

theorem length_cut {d : Nat} (hlen : getManBitLength man = 11 + d) :
    2 ^ 10 ≤ man / 2 ^ d ∧ man / 2 ^ d < 2 ^ 11 := by
  have hlt := getManBitLength_lt man
  have hne : man ≠ 0 := by
    intro h
    rw [h, getManBitLength, if_pos rfl] at hlen
    omega
  have hle := two_pow_getManBitLength_le hne
  rw [hlen, Nat.pow_add] at hlt hle
  exact ⟨(Nat.le_div_iff_mul_le (Nat.two_pow_pos d)).mpr (by omega),
    Nat.div_lt_of_lt_mul (by rwa [Nat.mul_comm] at hlt)⟩

theorem length_fill (hne : man ≠ 0) (hlen : getManBitLength man ≤ 11) :
    2 ^ 10 ≤ man * 2 ^ (11 - getManBitLength man) ∧
      man * 2 ^ (11 - getManBitLength man) < 2 ^ 11 := by
  have hlt := getManBitLength_lt man
  have hle := two_pow_getManBitLength_le hne
  generalize getManBitLength man = len at *
  have hpow : 2 ^ len * 2 ^ (11 - len) = 2 ^ 11 := by
    rw [← Nat.pow_add, Nat.add_sub_cancel' hlen]
  have hlt' := Nat.mul_lt_mul_of_pos_right hlt (Nat.two_pow_pos (11 - len))
  have hle' := Nat.mul_le_mul_right (2 ^ (11 - len)) hle
  rw [hpow] at hlt' hle'
  rw [Nat.mul_assoc] at hle'
  exact ⟨by omega, hlt'⟩

/-- The length of a number of `w` bits. -/
theorem getManBitLength_le {w : Nat} (hne : man ≠ 0) (hman : man < 2 ^ w) :
    getManBitLength man ≤ w := by
  have hle := two_pow_getManBitLength_le hne
  have hlt : 2 ^ getManBitLength man < 2 ^ (w + 1) := by
    rw [Nat.pow_succ]
    omega
  have := (Nat.pow_lt_pow_iff_right (by decide)).mp hlt
  omega

theorem round_cases (man : Nat) :
    (∃ d, 1 ≤ d ∧ getManBitLength man = 11 + d ∧ round man = roundLong man (11 + d)) ∨
      getManBitLength man ≤ 11 ∧ round man = roundShort man (getManBitLength man) := by
  unfold round
  by_cases hlen : 11 < getManBitLength man
  · obtain ⟨d, hd⟩ := Nat.exists_eq_add_of_lt hlen
    rw [Nat.add_assoc] at hd
    rw [if_pos hlen]
    exact .inl ⟨d + 1, Nat.succ_pos d, hd, congrArg _ hd⟩
  · exact .inr ⟨Nat.not_lt.mp hlen, if_neg hlen⟩

/-- Rounding a number of any length. -/
theorem round_places (hne : man ≠ 0) (hman : man < 2 ^ 32) :
    PlacesNearest man (round man) := by
  have hlen32 := getManBitLength_le hne hman
  rcases round_cases man with ⟨d, hpos, hd, heq⟩ | ⟨hlen, heq⟩
  · have hcut := length_cut hd
    rw [heq]
    exact (roundLong_places hpos (by omega) hcut.1 hcut.2).1
  · have hfill := length_fill hne hlen
    rw [heq]
    exact roundShort_places hfill.1 hfill.2 hlen

theorem round_exp_le (hne : man ≠ 0) (hman : man < 2 ^ 16) :
    (round man).2 ≤ 31 ∧ ((round man).2 = 31 → (round man).1 = 2 ^ 10) := by
  have hlen16 := getManBitLength_le hne hman
  rcases round_cases man with ⟨d, hpos, hd, heq⟩ | ⟨hlen, heq⟩
  · have hcut := length_cut hd
    rw [heq]
    obtain ⟨-, hle, htop⟩ := roundLong_places hpos (by omega) hcut.1 hcut.2
    exact ⟨by omega, fun h => htop (by omega)⟩
  · have hexp : (roundShort man (getManBitLength man)).2 =
        15 + ((getManBitLength man : Int) - 1) := rfl
    rw [heq, hexp]
    exact ⟨by omega, fun h => by omega⟩

theorem roundClamped_roundsTo {s : Nat} (hne : man ≠ 0) (hman : man < 2 ^ 32) (hs : s < 2) :
    half.RoundsTo (decide (s = 1)) man (construct s (roundClamped man)) := by
  have hplaces := round_places hne hman
  unfold round at hplaces
  unfold roundClamped
  simp only [] at hplaces ⊢
  by_cases hlen : 11 < getManBitLength man
  · rw [if_pos hlen] at hplaces ⊢
    exact construct_clampExp_roundsTo hplaces hs
  · have hexp : (roundShort man (getManBitLength man)).2 =
        15 + ((getManBitLength man : Int) - 1) := rfl
    rw [if_neg hlen] at hplaces ⊢
    exact construct_roundsTo hplaces (by omega) (fun h => by omega) hs

theorem roundsTo_infinity (s : Nat) (hman : 2 ^ 16 ≤ man) (hs : s < 2) :
    half.RoundsTo (decide (s = 1)) man (fp16Constructor s FP16_MAX_EXP 0) := by
  have hlt := getManBitLength_lt man
  have hlen : 16 < getManBitLength man := by
    by_contra h
    have := Nat.pow_le_pow_right (n := 2) (by decide) (Nat.not_lt.mp h)
    omega
  obtain ⟨d, hd⟩ := Nat.exists_eq_add_of_lt hlen
  have hcut : 2 ^ 10 ≤ man / 2 ^ (d + 6) ∧ man / 2 ^ (d + 6) < 2 ^ 11 := length_cut (by omega)
  have hn := nearest_cut hcut.1 hcut.2
  refine ⟨negative_fp16Constructor hs (by decide) 0, _, hn, ?_⟩
  have hbig := Nat.mul_le_mul_right (2 ^ 10) (show 30 ≤ 24 + (d + 6) by omega)
  have htotal : 31 * 2 ^ 10 ≤ (24 + (d + 6)) * 2 ^ 10 + man / 2 ^ (d + 6) +
      roundUp (man / 2 ^ (d + 6)) (man % 2 ^ (d + 6)) (d + 6) :=
    (Nat.add_le_add hbig hcut.1).trans (Nat.le_add_right _ _)
  rw [code_fp16Constructor hs (by decide), half_infinity, Nat.min_eq_right htotal]
  decide

/-! ## Signs and magnitudes -/

section Signed

variable {w : Nat} (x : BitVec (w + 1))

theorem bitVec_sign : x.toNat / 2 ^ w = if x.toInt < 0 then 1 else 0 := by
  have hlt := x.isLt
  have htwo : 2 ^ (w + 1) = 2 * 2 ^ w := by rw [Nat.pow_succ, Nat.mul_comm]
  have hint := BitVec.toInt_eq_toNat_cond x
  rw [htwo] at hlt hint
  generalize 2 ^ w = p at *
  by_cases hneg : x.toInt < 0
  · rw [if_pos hneg]
    refine Nat.div_eq_of_lt_le ?_ (by omega)
    split at hint <;> omega
  · rw [if_neg hneg]
    refine Nat.div_eq_of_lt ?_
    split at hint <;> omega

theorem bitVec_magnitude : (if x.toInt < 0 then (-x).toNat else x.toNat) = x.toInt.natAbs := by
  have hlt := x.isLt
  have hint := BitVec.toInt_eq_toNat_cond x
  by_cases hneg : x.toInt < 0
  · rw [if_pos hneg, BitVec.toNat_neg, Nat.mod_eq_of_lt]
    · split at hint <;> omega
    · split at hint <;> omega
  · rw [if_neg hneg]
    split at hint <;> omega

end Signed

/-! ## The conversions -/

/-- `w` is the value rounded to nearest, ties to even. -/
def Rounded (v : Int) (w : Nat) : Prop :=
  half.RoundsTo (decide (v < 0)) v.natAbs w

theorem decide_sign (v : Int) : decide ((if v < 0 then 1 else 0) = 1) = decide (v < 0) := by
  by_cases h : v < 0
  · simp [h]
  · simp [h]

theorem rounded_zero : Rounded 0 0 := by
  have hn := nearestEven_place (p := 10) (e := 0) (m := 0) (r := 0) (t := 0)
    (u := half.unit) (x := 0) (by decide) half.unit_pos (Or.inr rfl)
    (by decide) (by decide) (by simp)
  have hround : roundUp 0 0 0 = 0 := by decide
  rw [hround, Nat.zero_mul] at hn
  refine ⟨?_, 0, ?_, by decide⟩
  · rw [half_negative]
    decide
  · exact_mod_cast hn

/-- By induction on the shift: the leading bit is moved to its place. -/
theorem shiftToHideBit_eq : ∀ {j n m e : Nat}, j < n → j ≤ e → e < 2 ^ 16 → 2 ^ 10 ≤ m * 2 ^ j →
    m * 2 ^ j < 2 ^ 11 → shiftToHideBit n m e = some (m * 2 ^ j, e - j)
  | _, 0, _, _, hn, _, _, _, _ => absurd hn (Nat.not_lt_zero _)
  | 0, n + 1, m, e, _, _, _, hlo, hhi => by
    rw [pow_zero, Nat.mul_one] at hlo hhi ⊢
    -- the hidden bit is set: the shift is done
    have hbit : m &&& FP16_MAN_HIDE_BIT ≠ 0 := by
      rw [← Nat.pos_iff_ne_zero]
      show 0 < m &&& 2 ^ 10
      rw [and_two_pow_pos]
      omega
    rw [shiftToHideBit, if_neg hbit, Nat.sub_zero]
  | j + 1, n + 1, m, e, hn, he, he16, hlo, hhi => by
    have hj := Nat.two_pow_pos j
    have hmul : m * 2 ^ (j + 1) = m * 2 * 2 ^ j := by
      rw [Nat.pow_succ]
      ring
    rw [hmul] at hlo hhi ⊢
    have hlow : m < 2 ^ 10 := by
      have := Nat.le_mul_of_pos_right (m * 2) hj
      omega
    -- not yet: one more place
    have hbit : m &&& FP16_MAN_HIDE_BIT = 0 := by
      by_contra h
      have hpos : 0 < m &&& 2 ^ 10 := Nat.pos_of_ne_zero h
      rw [and_two_pow_pos] at hpos
      omega
    rw [shiftToHideBit, if_pos hbit, Nat.shiftLeft_eq, pow_one, Nat.mod_eq_of_lt (by omega),
      show (e + (2 ^ 16 - 1)) % 2 ^ 16 = e - 1 by omega,
      shiftToHideBit_eq (by omega) (by omega) (by omega) hlo hhi, Nat.sub_sub, Nat.add_comm 1]

/-- A number of at most eight bits needs no rounding. -/
theorem shiftToHideBit_roundShort {m s : Nat} (hne : m ≠ 0) (hm : m < 2 ^ 8) (hs : s < 2) :
    ∃ w, (shiftToHideBit 17 m FP16_MAN_LEN).map (fun (mRet, eRet) =>
        fp16Constructor s ((eRet + FP16_EXP_BIAS) % 2 ^ 16) mRet) = some w ∧
      half.RoundsTo (decide (s = 1)) m w := by
  have hlen := getManBitLength_le hne hm
  have hpos : getManBitLength m ≠ 0 := fun h => by
    have := getManBitLength_lt m
    rw [h] at this
    omega
  have hfill := length_fill hne (by omega)
  have hplaces := roundShort_places hfill.1 hfill.2 (by omega)
  have hexp : (roundShort m (getManBitLength m)).2 = 15 + ((getManBitLength m : Int) - 1) := rfl
  refine ⟨_, ?_, construct_roundsTo hplaces (by omega) (fun h => by omega) hs⟩
  rw [shiftToHideBit_eq (j := 11 - getManBitLength m) (by omega)
    (by unfold FP16_MAN_LEN; omega) (by decide) hfill.1 hfill.2]
  unfold construct roundShort FP16_MAN_LEN FP16_EXP_BIAS
  rw [Option.map_some, Nat.shiftLeft_eq]
  simp only []
  rw [Nat.mod_eq_of_lt (show m * 2 ^ (11 - getManBitLength m) < 2 ^ 16 by omega)]
  congr 2
  omega

theorem code_ne_zero {x : ℚ} (h : PlacesNearest x me) {s : Bool} {w : Nat}
    (hw : half.RoundsTo s x w) : half.code w ≠ 0 := by
  obtain ⟨e, -, hlo, -, hn⟩ := h
  obtain ⟨-, n, hn', hcode⟩ := hw
  rw [hcode, half_infinity, NearestEven.unique (grid_strictMono 10 half.unit_pos) hn' hn]
  omega

/-- The sign bit of an `int8_t`, and the bits below it. -/
theorem int8_parts (v : Int8) :
    (v.toUInt8.toNat &&& 0x80) >>> 7 = (if v.toInt < 0 then 1 else 0) ∧
      ((v.toUInt8.toNat &&& INT8_T_MAX : Nat) : Int) =
        if v.toInt < 0 then v.toInt + 2 ^ 7 else v.toInt := by
  have hsign : v.toUInt8.toNat / 2 ^ 7 = if v.toInt < 0 then 1 else 0 := bitVec_sign v.toBitVec
  have hlt : v.toUInt8.toNat < 2 ^ 8 := v.toUInt8.toNat_lt
  have hint : v.toInt = if 2 * v.toUInt8.toNat < 2 ^ 8 then (v.toUInt8.toNat : Int)
      else v.toUInt8.toNat - 2 ^ 8 := BitVec.toInt_eq_toNat_cond v.toBitVec
  have hm : v.toUInt8.toNat &&& INT8_T_MAX = v.toUInt8.toNat % 2 ^ 7 :=
    Nat.and_two_pow_sub_one_eq_mod _ 7
  constructor
  · rw [Nat.shiftRight_and_distrib, Nat.shiftRight_eq_div_pow, ← hsign]
    show v.toUInt8.toNat / 2 ^ 7 &&& 1 = _
    rw [Nat.and_one_is_mod]
    omega
  · rw [hm]
    split at hint <;> split <;> omega

/-- Every value is converted but the least one. -/
theorem assignInt8_rounded (v : Int8) :
    (∃ w, assignInt8 v = some w ∧ Rounded v.toInt w) ↔ v.toInt ≠ -2 ^ 7 := by
  obtain ⟨hs, hm⟩ := int8_parts v
  have hlo := v.le_toInt
  have hhi := v.toInt_lt
  unfold assignInt8
  simp only [hs]
  generalize v.toUInt8.toNat &&& INT8_T_MAX = m at *
  generalize v.toInt = i at *
  by_cases h0 : m = 0
  · rw [if_pos h0, h0]
    by_cases hi : i < 0
    · -- the least value has the sign bit only
      rw [if_pos hi] at hm ⊢
      have hmin : i = -2 ^ 7 := by omega
      refine ⟨?_, fun h => absurd hmin h⟩
      intro ⟨w, hw, hr⟩
      rw [Option.some.injEq] at hw
      unfold Rounded at hr
      have hne : i.natAbs ≠ 0 := by omega
      have hcode := code_ne_zero (round_places hne (by omega)) hr
      rw [← hw] at hcode
      exact absurd (by decide) hcode
    · rw [if_neg hi] at hm ⊢
      have hzero : i = 0 := by omega
      exact ⟨fun _ => by omega, fun _ => ⟨0, rfl, hzero ▸ rounded_zero⟩⟩
  · have hman : (if (if i < 0 then 1 else 0) ≠ 0 then i.natAbs else m) = i.natAbs := by
      split at hm
      next hi => simp [hi]
      next hi =>
        simp only [hi, if_false, ne_eq, not_true_eq_false]
        omega
    have hne : i.natAbs ≠ 0 := by split at hm <;> omega
    rw [if_neg h0, hman]
    obtain ⟨w, hw, hr⟩ := shiftToHideBit_roundShort (s := if i < 0 then 1 else 0) hne (by omega)
      (by split <;> decide)
    rw [decide_sign] at hr
    refine ⟨fun _ hmin => ?_, fun _ => ⟨w, hw, hr⟩⟩
    rw [if_pos (by omega)] at hm
    omega

theorem assignUInt8_rounded (v : UInt8) : ∃ w, assignUInt8 v = some w ∧ Rounded v.toNat w := by
  unfold assignUInt8
  by_cases h0 : v.toNat = 0
  · rw [if_neg (not_not.mpr h0), h0]
    exact ⟨0, rfl, rounded_zero⟩
  · rw [if_pos h0]
    exact shiftToHideBit_roundShort (s := 0) h0 v.toNat_lt (by decide)

theorem construct_round_rounded {v : Int} {s : Nat} (hne : v ≠ 0) (hs : s = if v < 0 then 1 else 0)
    (hman : man = v.natAbs) (hlt : man < 2 ^ 16) :
    Rounded v (construct s (round man)) := by
  have hman0 : man ≠ 0 := by omega
  obtain ⟨hexp, htop⟩ := round_exp_le hman0 hlt
  have hr := construct_roundsTo (round_places hman0 (by omega)) hexp htop (s := s)
    (by rw [hs]; split <;> decide)
  rw [hs, decide_sign, hman] at hr
  rw [hs, hman]
  exact hr

theorem construct_roundClamped_rounded {v : Int} {s : Nat} (hne : v ≠ 0)
    (hs : s = if v < 0 then 1 else 0) (hman : man = v.natAbs) (hlt : man < 2 ^ 32) :
    Rounded v (construct s (roundClamped man)) := by
  have hr := roundClamped_roundsTo (show man ≠ 0 by omega) hlt (s := s)
    (by rw [hs]; split <;> decide)
  rw [hs, decide_sign, hman] at hr
  rw [hs, hman]
  exact hr

/-- Every value is rounded. -/
theorem assignInt16_rounded (val : Nat) (v : Int16) : Rounded v.toInt (assignInt16 val v) := by
  have hs : v.toUInt16.toNat >>> 15 = if v.toInt < 0 then 1 else 0 := by
    rw [Nat.shiftRight_eq_div_pow]
    exact bitVec_sign v.toBitVec
  have hmag : (if v.toInt < 0 then (-v).toUInt16.toNat else v.toUInt16.toNat) = v.toInt.natAbs :=
    bitVec_magnitude v.toBitVec
  unfold assignInt16
  by_cases h0 : v = 0
  · rw [if_pos h0, h0]
    exact rounded_zero
  · have hne : v.toInt ≠ 0 := fun h => h0 (Int16.toInt_inj.mp h)
    have huiVal : (if v.toUInt16.toNat >>> 15 ≠ 0 then (-v).toUInt16.toNat
        else v.toUInt16.toNat) = v.toInt.natAbs := by
      rw [hs, ← hmag]
      by_cases hi : v.toInt < 0
      · simp [hi]
      · simp [hi]
    have hsmall : v.toInt.natAbs < 2 ^ 16 := by
      rw [← huiVal]
      split
      · exact (-v).toUInt16.toNat_lt
      · exact v.toUInt16.toNat_lt
    -- the mask leaves the magnitude as it is
    have hmask : v.toInt.natAbs &&& FP32_ABS_MAX = v.toInt.natAbs := by
      have := Nat.and_two_pow_sub_one_eq_mod v.toInt.natAbs 31
      rw [Nat.mod_eq_of_lt (by omega)] at this
      exact this
    simp only [h0, if_false, huiVal, hmask]
    rw [if_pos (by omega)]
    exact construct_round_rounded hne hs rfl hsmall

theorem assignUInt16_rounded (v : UInt16) : Rounded v.toNat (assignUInt16 v) := by
  unfold assignUInt16
  by_cases h0 : v = 0
  · rw [if_pos h0, h0]
    exact rounded_zero
  · have hne : v.toNat ≠ 0 := fun h => h0 (UInt16.toNat_inj.mp h)
    rw [if_neg h0]
    exact construct_round_rounded (by omega) (by rw [if_neg (by omega)]) (by omega) v.toNat_lt

theorem roundClamped_zero : roundClamped 0 = (0, 14) := by
  unfold roundClamped
  rw [getManBitLength_zero]
  rfl

/-- Sign and magnitude as the code takes them, the least value losing its magnitude. -/
theorem int32_parts {v : Int32} (h0 : v ≠ 0) :
    v.toInt ≠ 0 ∧ v.toUInt32.toNat >>> 31 = (if v.toInt < 0 then 1 else 0) ∧
      (if v.toUInt32.toNat >>> 31 ≠ 0 then (-v).toUInt32.toNat else v.toUInt32.toNat) &&&
        FP32_ABS_MAX = v.toInt.natAbs % 2 ^ 31 := by
  have hs : v.toUInt32.toNat >>> 31 = if v.toInt < 0 then 1 else 0 := by
    rw [Nat.shiftRight_eq_div_pow]
    exact bitVec_sign v.toBitVec
  have hmag : (if v.toInt < 0 then (-v).toUInt32.toNat else v.toUInt32.toNat) = v.toInt.natAbs :=
    bitVec_magnitude v.toBitVec
  refine ⟨fun h => h0 (Int32.toInt_inj.mp h), hs, ?_⟩
  rw [hs, ← hmag]
  refine Eq.trans ?_ (Nat.and_two_pow_sub_one_eq_mod _ 31)
  by_cases hi : v.toInt < 0
  · simp [hi, FP32_ABS_MAX]
  · simp [hi, FP32_ABS_MAX]

/-- Every value is rounded but the least one. -/
theorem assignInt32_rounded (v : Int32) : Rounded v.toInt (assignInt32 v) ↔ v.toInt ≠ -2 ^ 31 := by
  have hrange : -2 ^ 31 ≤ v.toInt ∧ v.toInt < 2 ^ 31 := ⟨v.le_toInt, v.toInt_lt⟩
  unfold assignInt32
  by_cases h0 : v = 0
  · rw [if_pos h0, h0]
    exact ⟨fun _ => by decide, fun _ => rounded_zero⟩
  · obtain ⟨hne, hs, hman⟩ := int32_parts h0
    simp only [h0, if_false, hman]
    rw [hs]
    by_cases hmin : v.toInt = -2 ^ 31
    · refine ⟨fun hr => ?_, fun h => absurd hmin h⟩
      -- the mask takes the only bit: the exponent of a number of no length is left
      have habs : v.toInt.natAbs = 2 ^ 31 := by omega
      unfold Rounded at hr
      rw [habs, if_pos (by omega)] at hr
      have hcode := hr.code_unique
        (roundsTo_infinity 1 (show 2 ^ 16 ≤ 2 ^ 31 by decide) (by decide))
      rw [Nat.mod_self, roundClamped_zero] at hcode
      exact absurd hcode (by decide)
    · refine ⟨fun _ => hmin, fun _ => construct_roundClamped_rounded hne rfl ?_ (by omega)⟩
      exact Nat.mod_eq_of_lt (by omega)

theorem assignUInt32_rounded (v : UInt32) : Rounded v.toNat (assignUInt32 v) := by
  unfold assignUInt32
  by_cases h0 : v = 0
  · rw [if_pos h0, h0]
    exact rounded_zero
  · have hne : v.toNat ≠ 0 := fun h => h0 (UInt32.toNat_inj.mp h)
    rw [if_neg h0]
    exact construct_roundClamped_rounded (by omega) (by rw [if_neg (by omega)]) (by omega)
      v.toNat_lt

theorem assignInt64_rounded (v : Int64) : Rounded v.toInt (assignInt64 v) ↔ v.toInt ≠ -2 ^ 31 := by
  unfold assignInt64
  by_cases hlo : v.toInt < -2 ^ 31
  · rw [if_pos hlo]
    refine ⟨fun _ => by omega, fun _ => ?_⟩
    have hr := roundsTo_infinity 1 (show 2 ^ 16 ≤ v.toInt.natAbs by omega) (by decide)
    have hneg : decide (v.toInt < 0) = decide (1 = 1) := decide_eq_decide.mpr (by omega)
    unfold Rounded
    rw [hneg]
    exact hr
  rw [if_neg hlo]
  by_cases hhi : 2 ^ 31 - 1 < v.toInt
  · rw [if_pos hhi]
    refine ⟨fun _ => by omega, fun _ => ?_⟩
    have hr := roundsTo_infinity 0 (show 2 ^ 16 ≤ v.toInt.natAbs by omega) (by decide)
    have hpos : decide (v.toInt < 0) = decide (0 = 1) := decide_eq_decide.mpr (by omega)
    unfold Rounded
    rw [hpos]
    exact hr
  · rw [if_neg hhi]
    have hcast : (Int32.ofInt v.toInt).toInt = v.toInt :=
      Int32.toInt_ofInt_of_le (by omega) (by omega)
    have hr := assignInt32_rounded (Int32.ofInt v.toInt)
    rwa [hcast] at hr

theorem assignUInt64_rounded (v : UInt64) : Rounded v.toNat (assignUInt64 v) := by
  unfold assignUInt64
  by_cases hhi : 2 ^ 32 - 1 < v.toNat
  · rw [if_pos hhi]
    have hr := roundsTo_infinity 0 (show 2 ^ 16 ≤ v.toNat by omega) (by decide)
    have hpos : decide ((v.toNat : Int) < 0) = decide (0 = 1) := decide_eq_decide.mpr (by omega)
    unfold Rounded
    rw [hpos, Int.natAbs_natCast]
    exact hr
  · rw [if_neg hhi]
    have hcast : (UInt32.ofNat v.toNat).toNat = v.toNat := UInt32.toNat_ofNat_of_lt' (by
      show v.toNat < 2 ^ 32
      omega)
    have hr := assignUInt32_rounded (UInt32.ofNat v.toNat)
    rwa [hcast] at hr

/-- The conversions round to nearest, ties to even, but for the least value that 8 bits
have, and the least that 32 bits have; `val` is what the object held before. -/
theorem assign_integers (val : Nat) :
    (∀ v : Int8, (∃ w, assignInt8 v = some w ∧ Rounded v.toInt w) ↔ v.toInt ≠ -2 ^ 7) ∧
    (∀ v : UInt8, ∃ w, assignUInt8 v = some w ∧ Rounded v.toNat w) ∧
    (∀ v : Int16, Rounded v.toInt (assignInt16 val v)) ∧
    (∀ v : UInt16, Rounded v.toNat (assignUInt16 v)) ∧
    (∀ v : Int32, Rounded v.toInt (assignInt32 v) ↔ v.toInt ≠ -2 ^ 31) ∧
    (∀ v : UInt32, Rounded v.toNat (assignUInt32 v)) ∧
    (∀ v : Int64, Rounded v.toInt (assignInt64 v) ↔ v.toInt ≠ -2 ^ 31) ∧
    ∀ v : UInt64, Rounded v.toNat (assignUInt64 v) :=
  ⟨assignInt8_rounded, assignUInt8_rounded, assignInt16_rounded val, assignUInt16_rounded,
    assignInt32_rounded, assignUInt32_rounded, assignInt64_rounded, assignUInt64_rounded⟩

/-- `-128` becomes negative zero, and `INT32_MIN` a half, in 64 bits as in 32. -/
theorem least_not_rounded :
    assignInt8 (-128) = some 0x8000 ∧ ¬ Rounded (-128) 0x8000 ∧
    assignInt32 (-2 ^ 31) = 0xB800 ∧ assignInt64 (-2 ^ 31) = 0xB800 ∧
    ¬ Rounded (-2 ^ 31) 0xB800 := by
  have hword : assignInt32 (-2 ^ 31) = construct 1 (roundClamped 0) := rfl
  have hvalue : construct 1 (0, 14) = 0xB800 := by decide
  have h32 : assignInt32 (-2 ^ 31) = 0xB800 := by rw [hword, roundClamped_zero, hvalue]
  refine ⟨by decide, fun hr => ?_, h32, h32, fun hr => ?_⟩
  · exact code_ne_zero (round_places (show 128 ≠ 0 by decide) (by decide)) hr (by decide)
  · have hinf := roundsTo_infinity 1 (show 2 ^ 16 ≤ 2 ^ 31 by decide) (by decide)
    exact absurd (hr.code_unique hinf) (by decide)

end OpBase.Fp16
