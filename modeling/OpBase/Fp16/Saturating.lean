import OpBase.Fp16.FromFloat

/-!
# The half precision numbers of `op_common`

`op_common/op_host/util/fp16.cpp` has an `fp16_t` of its own. It is the one of
`composite_op/aclnn_engine` but for what is too large: where that one yields an infinity,
this one stays at the largest finite number. An infinity and a NaN end there too.

> `assign_saturates`: every pattern that is no NaN becomes what rounding to nearest, ties to
> even, makes of it, and at most 65504.
-/

namespace OpBase.Fp16.OpCommon

open OpBase.Lib
open FloatFormat (double half single)

/-- `Fp16Normalize` -/
def fp16Normalize (exp man : Nat) : Nat × Nat :=
  if FP16_MAX_EXP ≤ exp then (FP16_MAX_EXP - 1, FP16_MAX_MAN)
  else if exp = 0 ∧ man = FP16_MAN_HIDE_BIT then (exp + 1, 0)
  else (exp, man)

/-- `Fp16Normalize` and `Fp16Constructor`, with which the conversions end. -/
def normalConstructor (sRet : Nat) (em : Nat × Nat) : Nat :=
  let (eRet, mRet) := fp16Normalize em.1 em.2
  fp16Constructor sRet eRet mRet

/-- `eF > 0x8Fu`; the other literals of `operator=(const float &)` are the same. -/
def fp32Layout : FloatLayout := { Fp16.fp32Layout with overflowExp := 0x90 }

/-- `eD >= 0x410u`; the other literals of `operator=(const double &)` are the same. -/
def fp64Layout : FloatLayout := { Fp16.fp64Layout with overflowExp := 0x410 }

/-- The exponent and the mantissa before `Fp16Normalize`, from the fields of the pattern. -/
def round (l : FloatLayout) (eF mF : Nat) : Nat × Nat :=
  if l.overflowExp ≤ eF then (FP16_MAX_EXP - 1, FP16_MAX_MAN)
  else if eF ≤ l.underflowExp then
    if l.denormExp ≤ eF then
      let mF := mF ||| l.hideBit
      let mTmp := (mF <<< (eF - l.denormExp)) % 2 ^ 64
      (0, ((mTmp >>> l.manLen) % 2 ^ 16 + (isRoundOne mTmp l.manLen).toNat) % 2 ^ 16)
    else if eF = l.belowExp ∧ 0 < mF then (0, 1)
    else (0, 0)
  else
    let lenDelta := l.manLen - FP16_MAN_LEN
    let mRet := ((mF >>> lenDelta) % 2 ^ 16 + (isRoundOne mF lenDelta).toNat) % 2 ^ 16
    -- the carry out of the mantissa
    if mRet &&& FP16_MAN_HIDE_BIT ≠ 0 then (eF - l.underflowExp + 1, mRet)
    else (eF - l.underflowExp, mRet)

def assign (l : FloatLayout) (v : Nat) : Nat :=
  let sRet := (v &&& l.signMask) >>> l.signIndex
  let eF := (v &&& l.expMask) >>> l.manLen
  let mF := v &&& l.manMask
  normalConstructor sRet (round l eF mF)

/-- `fp16_t::operator=(const float &)` -/
def assignFloat (v : UInt32) : Nat := assign fp32Layout v.toNat

/-- `fp16_t::operator=(const double &)` -/
def assignDouble (v : UInt64) : Nat := assign fp64Layout v.toNat

/-! ## Normalised patterns -/

theorem fp16Normalize_exp_lt (e m : Nat) : (fp16Normalize e m).1 < 31 := by
  unfold fp16Normalize FP16_MAX_EXP
  split
  · show 30 < 31
    decide
  next h =>
    split
    next h0 =>
      show e + 1 < 31
      omega
    · show e < 31
      omega

/-- The code of a normalised exponent and mantissa. -/
def normalCode (em : Nat × Nat) : Nat :=
  (fp16Normalize em.1 em.2).1 * 2 ^ 10 + (fp16Normalize em.1 em.2).2 % 2 ^ 10

theorem code_normalConstructor {s : Nat} (hs : s < 2) (em : Nat × Nat) :
    half.code (normalConstructor s em) = normalCode em :=
  code_fp16Constructor hs ((fp16Normalize_exp_lt _ _).trans (by decide)) _

theorem negative_normalConstructor {s : Nat} (hs : s < 2) (em : Nat × Nat) :
    half.negative (normalConstructor s em) = decide (s = 1) :=
  negative_fp16Constructor hs ((fp16Normalize_exp_lt _ _).trans (by decide)) _

/-- Where the other library gives infinity, this one stops at the largest half. -/
theorem normalCode_eq (em : Nat × Nat) :
    normalCode em = min (Fp16.normalCode em) (half.infinity - 1) := by
  unfold normalCode Fp16.normalCode fp16Normalize Fp16.fp16Normalize
  rw [half_infinity]
  by_cases hmax : FP16_MAX_EXP ≤ em.1
  · rw [if_pos hmax, if_pos hmax]
    show 30 * 2 ^ 10 + 0x3FF % 2 ^ 10 = min (31 * 2 ^ 10 + _) _
    omega
  · rw [if_neg hmax, if_neg hmax]
    have hlt : em.1 < 31 := Nat.not_le.mp hmax
    by_cases h0 : em.1 = 0 ∧ em.2 = FP16_MAN_HIDE_BIT
    · rw [if_pos h0]
      show (em.1 + 1) * 2 ^ 10 + 0 % 2 ^ 10 = min ((em.1 + 1) * 2 ^ 10 + 0 % 2 ^ 10) _
      omega
    · rw [if_neg h0]
      show em.1 * 2 ^ 10 + em.2 % 2 ^ 10 = min (em.1 * 2 ^ 10 + em.2 % 2 ^ 10) _
      omega

theorem normalCode_of_max {em : Nat × Nat} (h : 31 ≤ em.1) : normalCode em = half.infinity - 1 := by
  unfold normalCode fp16Normalize
  rw [if_pos (show FP16_MAX_EXP ≤ em.1 from h), half_infinity]
  rfl

/-! ## The rounding -/

section Rounding

variable {l : FloatLayout} {F : FloatFormat} {bias e m k : Nat}

theorem round_eq (he : e < l.overflowExp) (hk : e < k) :
    round { l with overflowExp := k } e m = l.round e m := by
  unfold round FloatLayout.round
  rw [if_neg (Nat.not_le.mpr hk), if_neg (Nat.not_le.mpr he)]

theorem normalCode_round_overflow (hl : l.For F bias) (he : l.overflowExp ≤ e) :
    normalCode (round { l with overflowExp := l.overflowExp + 1 } e m)
      = half.infinity - 1 := by
  have hover := hl.overflowExp
  have hunder := hl.underflowExp
  by_cases hk : l.overflowExp + 1 ≤ e
  · unfold round
    rw [if_pos hk]
    rfl
  · apply normalCode_of_max
    unfold round
    rw [if_neg hk, if_neg (show ¬ e ≤ l.underflowExp by omega)]
    dsimp only
    split
    · show 31 ≤ e - l.underflowExp + 1
      omega
    · show 31 ≤ e - l.underflowExp
      omega

theorem normalCode_round_finite (hl : l.For F bias) (hm : m < 2 ^ F.manBits)
    (he : e < l.nanExp) {v : Nat} (hcode : F.code v = e * 2 ^ F.manBits + m) :
    ∃ n, NearestEven (grid 10 half.unit) (F.magnitude v) n ∧
      normalCode (round { l with overflowExp := l.overflowExp + 1 } e m)
        = min n (half.infinity - 1) := by
  obtain ⟨n, hn, hcut⟩ := hl.round_finite hm he hcode
  refine ⟨n, hn, ?_⟩
  by_cases hover : l.overflowExp ≤ e
  · have hinf : half.infinity ≤ n := by
      have hround : l.round e m = (31, 0) := by
        unfold FloatLayout.round
        rw [if_pos hover, if_neg (fun hc => by omega)]
        rfl
      rw [hround, normalCode_normal (by decide), half_infinity] at hcut
      rw [half_infinity]
      omega
    rw [normalCode_round_overflow hl hover, Nat.min_eq_right (by omega)]
  · have hlt := Nat.not_le.mp hover
    rw [round_eq hlt (Nat.lt_succ_of_lt hlt), normalCode_eq, hcut, Nat.min_assoc]
    rw [Nat.min_eq_right (Nat.sub_le _ 1)]

end Rounding

/-! ## The conversions -/

theorem saturates {l : FloatLayout} {F : FloatFormat} {bias : Nat} (hl : l.For F bias) (v : Nat) :
    F.Saturates half v (assign { l with overflowExp := l.overflowExp + 1 } v) := by
  have hover := hl.overflowExp
  have hhigh := hl.high
  have hcode := code_eq_fields F v
  have htop := hl.infinity_le v
  have hm := Nat.mod_lt v (Nat.two_pow_pos F.manBits)
  have hassign : assign { l with overflowExp := l.overflowExp + 1 } v
      = normalConstructor (v / 2 ^ (F.expBits + F.manBits) % 2)
        (round { l with overflowExp := l.overflowExp + 1 }
          (v / 2 ^ F.manBits % 2 ^ F.expBits) (v % 2 ^ F.manBits)) := by
    unfold assign
    rw [hl.sign_eq, hl.exp_eq, hl.man_eq]
  generalize v / 2 ^ F.manBits % 2 ^ F.expBits = e at *
  generalize v % 2 ^ F.manBits = m at *
  have hsign : v / 2 ^ (F.expBits + F.manBits) % 2 < 2 := Nat.mod_lt _ (by decide)
  rw [hassign]
  refine ⟨fun _ => negative_normalConstructor hsign _, fun h => ?_, fun h => ?_⟩
  · rw [code_normalConstructor hsign]
    exact normalCode_round_overflow hl (by have := htop.mp h.ge; omega)
  · have hlt : e < l.nanExp := lt_of_not_ge fun hge => h.not_ge (htop.mpr hge)
    rw [code_normalConstructor hsign]
    exact normalCode_round_finite hl hm hlt hcode

/-- The two conversions round to nearest, ties to even, and stay finite. -/
theorem assign_saturates (f : UInt32) (d : UInt64) :
    single.Saturates half f.toNat (assignFloat f) ∧
      double.Saturates half d.toNat (assignDouble d) :=
  ⟨saturates fp32Layout_for f.toNat, saturates fp64Layout_for d.toNat⟩

/-- 65520 is half way between 65504 and 2 ^ 16, and 65535.99… is next to the latter. -/
example : assignFloat 0x477FF000 = 0x7BFF ∧ assignFloat 0xC77FFFFF = 0xFBFF ∧
    assignDouble 0x7FF0000000000000 = 0x7BFF ∧ assignDouble 0x3E70000000000001 = 1 := by
  decide

end OpBase.Fp16.OpCommon
