import OpBase.Lib.FloatGrid

/-!
# Half precision numbers as bit patterns

`include/nnopbase/opdev/fp16_t.h` and `composite_op/aclnn_engine/fp16_t.cpp`: the macros
that take a pattern apart and put it together, and what the conversions and the arithmetic
share. Machine integers are naturals here, cut where the source's type cuts them;
`g_RoundMode` is `ROUND_TO_NEAREST`.
-/

namespace OpBase.Fp16

open OpBase.Lib

def FP16_EXP_BIAS : Nat := 15
def FP16_MAN_LEN : Nat := 10
def FP16_SIGN_INDEX : Nat := 15
def FP16_SIGN_MASK : Nat := 0x8000
def FP16_ABS_MAX : Nat := 0x7FFF
def FP16_MAX_EXP : Nat := 0x1F
def FP16_MAX_MAN : Nat := 0x3FF
def FP16_MAN_HIDE_BIT : Nat := 0x400
def FP32_SIGN_MASK : Nat := 0x80000000
def FP32_SIGN_INDEX : Nat := 31
def FP32_ABS_MAX : Nat := 0x7FFFFFFF
def FP32_BIT_LENGTH : Nat := 32

/-- `FP16_CONSTRUCTOR` -/
def fp16Constructor (s e m : Nat) : Nat :=
  ((s <<< FP16_SIGN_INDEX) ||| (e <<< FP16_MAN_LEN) ||| (m &&& FP16_MAX_MAN)) % 2 ^ 16

/-- `IsRoundOne` -/
def isRoundOne (man truncLen : Nat) : Bool :=
  let shiftOut := truncLen - 2
  let mask0 := (0x4 <<< shiftOut) % 2 ^ 64
  let mask1 := (0x2 <<< shiftOut) % 2 ^ 64
  let mask2 := mask1 - 1
  let lastBit := decide (0 < man &&& mask0)
  let truncHigh := decide (0 < man &&& mask1)
  let truncLeft := decide (0 < man &&& mask2)
  truncHigh && (truncLeft || lastBit)

/-- `Fp16Normalize` -/
def fp16Normalize (exp man : Nat) : Nat × Nat :=
  if FP16_MAX_EXP ≤ exp then (FP16_MAX_EXP, man)
  else if exp = 0 ∧ man = FP16_MAN_HIDE_BIT then (exp + 1, 0)
  else (exp, man)

/-- `Fp16Normalize` and `FP16_CONSTRUCTOR`, with which conversions and arithmetic end. -/
def normalConstructor (sRet : Nat) (em : Nat × Nat) : Nat :=
  let (eRet, mRet) := fp16Normalize em.1 em.2
  fp16Constructor sRet eRet mRet

/-- `ManRoundToNearest` -/
def manRoundToNearest (bit0 bit1 bitLeft : Bool) (man shift : Nat) : Nat :=
  (man >>> shift) + if bit1 && (bitLeft || bit0) then 1 else 0

/-- The flags that the integer conversions and the arithmetic hand to `ManRoundToNearest`:
`mTrunc` has the bits cut off, from the top of its 32 on. -/
def roundTrunc (mTrunc man shift : Nat) : Nat :=
  let bLastBit := decide (0 < man &&& 1)
  let bTruncHigh := decide (0 < mTrunc &&& FP32_SIGN_MASK)
  let bTruncLeft := decide (0 < mTrunc &&& FP32_ABS_MAX)
  manRoundToNearest bLastBit bTruncHigh bTruncLeft man shift

/-- `while (man >= mMax || eRet < 0)`: one place up for a mantissa that has grown too long. -/
def carryDown (man : Nat) (exp : Int) : Nat × Int :=
  if FP16_MAN_HIDE_BIT <<< 1 ≤ man ∨ exp < 0 then carryDown (man >>> 1) (exp + 1) else (man, exp)
termination_by man + (-exp).toNat
decreasing_by
  rename_i h
  rw [Nat.shiftRight_eq_div_pow]
  rcases h with h | h
  · have : 2048 ≤ man := h
    omega
  · omega

/-- `GetManBitLength` -/
def getManBitLength (man : Nat) : Nat :=
  if man = 0 then 0 else getManBitLength (man >>> 1) + 1
termination_by man
decreasing_by
  rw [Nat.shiftRight_eq_div_pow]
  omega

/-! ## Patterns -/

theorem half_code (v : Nat) : FloatFormat.half.code v = v % 2 ^ 15 := rfl

theorem half_negative (v : Nat) : FloatFormat.half.negative v = decide (v / 2 ^ 15 % 2 = 1) := by
  unfold FloatFormat.negative
  rw [show FloatFormat.half.expBits + FloatFormat.half.manBits = 15 from rfl]

theorem half_infinity : FloatFormat.half.infinity = 31 * 2 ^ 10 := by decide

/-- The integers are `2 ^ 24` of the smallest numbers apart. -/
theorem two_pow_mul_unit : (2 : ℚ) ^ 24 * FloatFormat.half.unit = 1 := by
  unfold FloatFormat.unit FloatFormat.half
  norm_num

theorem fp16Constructor_eq {s e : Nat} (hs : s < 2) (he : e < 32) (m : Nat) :
    fp16Constructor s e m = s * 2 ^ 15 + (e * 2 ^ 10 + m % 2 ^ 10) := by
  have hfit : ∀ low < 2 ^ 15, s * 2 ^ 15 + low < 2 ^ 16 := fun low hlow => by omega
  have hm : m % 2 ^ 10 < 2 ^ 10 := Nat.mod_lt _ (by decide)
  have hem : e * 2 ^ 10 + m % 2 ^ 10 < 2 ^ 15 := by omega
  have hlow : (e <<< FP16_MAN_LEN) ||| (m &&& FP16_MAX_MAN) = e * 2 ^ 10 + m % 2 ^ 10 := by
    show (e <<< 10) ||| (m &&& 2 ^ 10 - 1) = _
    rw [Nat.and_two_pow_sub_one_eq_mod, Nat.shiftLeft_eq, Nat.mul_comm,
      ← Nat.two_pow_add_eq_or_of_lt hm]
  have hall : ((s <<< FP16_SIGN_INDEX) ||| (e <<< FP16_MAN_LEN) ||| (m &&& FP16_MAX_MAN)) =
      s * 2 ^ 15 + (e * 2 ^ 10 + m % 2 ^ 10) := by
    rw [Nat.or_assoc, hlow]
    show (s <<< 15) ||| _ = _
    rw [Nat.shiftLeft_eq, Nat.mul_comm, ← Nat.two_pow_add_eq_or_of_lt hem]
  rw [fp16Constructor, hall, Nat.mod_eq_of_lt (hfit _ hem)]

/-- The code is put together of exponent and mantissa. -/
theorem code_fp16Constructor {s e : Nat} (hs : s < 2) (he : e < 32) (m : Nat) :
    FloatFormat.half.code (fp16Constructor s e m) = e * 2 ^ 10 + m % 2 ^ 10 := by
  rw [fp16Constructor_eq hs he, half_code]
  omega

/-- The sign bit is the one that is put in. -/
theorem negative_fp16Constructor {s e : Nat} (hs : s < 2) (he : e < 32) (m : Nat) :
    FloatFormat.half.negative (fp16Constructor s e m) = decide (s = 1) := by
  rw [fp16Constructor_eq hs he, half_negative]
  exact decide_eq_decide.mpr (by omega)

/-! ## Normalised patterns -/

theorem fp16Normalize_exp_lt (e m : Nat) : (fp16Normalize e m).1 < 32 := by
  unfold fp16Normalize FP16_MAX_EXP
  split
  · show 31 < 32
    decide
  · split
    · show e + 1 < 32
      omega
    · show e < 32
      omega

/-- The code of a normalised exponent and mantissa. -/
def normalCode (em : Nat × Nat) : Nat :=
  (fp16Normalize em.1 em.2).1 * 2 ^ 10 + (fp16Normalize em.1 em.2).2 % 2 ^ 10

theorem code_normalConstructor {s : Nat} (hs : s < 2) (em : Nat × Nat) :
    FloatFormat.half.code (normalConstructor s em) = normalCode em :=
  code_fp16Constructor hs (fp16Normalize_exp_lt _ _) _

theorem negative_normalConstructor {s : Nat} (hs : s < 2) (em : Nat × Nat) :
    FloatFormat.half.negative (normalConstructor s em) = decide (s = 1) :=
  negative_fp16Constructor hs (fp16Normalize_exp_lt _ _) _

theorem normalCode_subnormal {m : Nat} (hm : m ≤ 2 ^ 10) : normalCode (0, m) = m := by
  unfold normalCode fp16Normalize
  rw [if_neg (show ¬ FP16_MAX_EXP ≤ 0 by decide)]
  by_cases h : m = 2 ^ 10
  · rw [if_pos ⟨rfl, h⟩, h]
    rfl
  · rw [if_neg (fun hc => h hc.2)]
    simp only []
    omega

/-- A significand with its leading bit loses that bit, and the exponent stops at 31. -/
theorem normalCode_normal {e : Nat} (he : 0 < e) (m : Nat) :
    normalCode (e, m) = min e 31 * 2 ^ 10 + m % 2 ^ 10 := by
  unfold normalCode fp16Normalize
  by_cases h : 31 ≤ e
  · rw [if_pos (show FP16_MAX_EXP ≤ e from h), Nat.min_eq_right h]
    rfl
  · rw [if_neg (show ¬ FP16_MAX_EXP ≤ e from h), if_neg (fun hc => he.ne' hc.1),
      Nat.min_eq_left (by omega)]

/-! ## Cutting bits off -/

theorem and_two_pow_pos (n i : Nat) : 0 < n &&& 2 ^ i ↔ n / 2 ^ i % 2 = 1 := by
  rw [Nat.and_two_pow, Nat.testBit_eq_decide_div_mod_eq]
  have := Nat.two_pow_pos i
  by_cases h : n / 2 ^ i % 2 = 1
  · simp [h]
  · simp [h]

theorem mod_two_pow_succ_cases (n k : Nat) :
    n % 2 ^ (k + 1) = n % 2 ^ k + if n / 2 ^ k % 2 = 1 then 2 ^ k else 0 := by
  rw [Nat.mod_pow_succ]
  rcases Nat.mod_two_eq_zero_or_one (n / 2 ^ k) with h | h
  · simp [h]
  · simp [h]

/-- `IsRoundOne` looks at the half, at what is behind it and at the last bit kept. -/
theorem isRoundOne_toNat (man : Nat) {t : Nat} (ht : 2 ≤ t) (ht' : t < 64) :
    (isRoundOne man t).toNat = roundUp (man / 2 ^ t) (man % 2 ^ t) t := by
  obtain ⟨k, rfl⟩ := Nat.exists_eq_add_of_le ht
  -- the masks of the last bit that stays and of the first one that goes
  have hmask0 : (0x4 <<< (2 + k - 2)) % 2 ^ 64 = 2 ^ (2 + k) := by
    rw [Nat.add_sub_cancel_left, Nat.shiftLeft_eq, Nat.pow_add]
    refine Nat.mod_eq_of_lt ?_
    have := Nat.pow_lt_pow_right (a := 2) (by decide) ht'
    rwa [Nat.pow_add] at this
  have hmask1 : (0x2 <<< (2 + k - 2)) % 2 ^ 64 = 2 ^ (1 + k) := by
    rw [Nat.add_sub_cancel_left, Nat.shiftLeft_eq, Nat.pow_add]
    refine Nat.mod_eq_of_lt ?_
    have := Nat.pow_lt_pow_right (a := 2) (by decide) (show 1 + k < 64 by omega)
    rwa [Nat.pow_add] at this
  have hsplit := mod_two_pow_succ_cases man (1 + k)
  have hlt := Nat.mod_lt man (Nat.two_pow_pos (1 + k))
  have hpow : 2 ^ (2 + k) = 2 * 2 ^ (1 + k) := by
    rw [show 2 + k = (1 + k) + 1 by omega, Nat.pow_succ, Nat.mul_comm]
  rw [show 1 + k + 1 = 2 + k by omega] at hsplit
  unfold isRoundOne roundUp
  simp only [hmask0, hmask1, and_two_pow_pos, Nat.and_two_pow_sub_one_eq_mod, hsplit]
  rw [hpow] at hsplit ⊢
  generalize man % 2 ^ (1 + k) = left at *
  generalize 2 ^ (1 + k) = half at *
  generalize man / (2 * half) % 2 = last
  -- up, if more than half a unit is cut off, or half of one from an odd value
  by_cases hhigh : man / half % 2 = 1
  · by_cases hleft : 0 < left
    · simp [hhigh, hleft, Nat.mul_add]
    · have h0 : left = 0 := by omega
      by_cases hlast : last = 1
      · simp [hhigh, h0, hlast]
      · simp [hhigh, h0, hlast]
  · simp only [hhigh, decide_false, Bool.false_and, Bool.toNat_false, if_false, Nat.add_zero]
    exact (if_neg (by omega)).symm

/-! ## The end of a word -/

/-- What is cut off rounds up as the grid asks for. -/
theorem roundTrunc_eq {mTrunc : Nat} (h : mTrunc < 2 ^ 32) (man shift : Nat) :
    roundTrunc mTrunc man shift = man / 2 ^ shift + roundUp man mTrunc 32 := by
  have hhigh : 0 < mTrunc &&& FP32_SIGN_MASK ↔ 2 ^ 31 ≤ mTrunc := by
    show 0 < mTrunc &&& 2 ^ 31 ↔ _
    rw [and_two_pow_pos]
    omega
  have hleft : mTrunc &&& FP32_ABS_MAX = mTrunc % 2 ^ 31 := Nat.and_two_pow_sub_one_eq_mod _ 31
  have hlast : 0 < man &&& 1 ↔ man % 2 = 1 := by
    rw [Nat.and_one_is_mod]
    omega
  unfold roundTrunc manRoundToNearest roundUp
  simp only [hhigh, hleft, hlast, Nat.shiftRight_eq_div_pow, Bool.and_eq_true, Bool.or_eq_true,
    decide_eq_true_eq]
  by_cases hup : 2 ^ 31 ≤ mTrunc ∧ (0 < mTrunc % 2 ^ 31 ∨ man % 2 = 1)
  · rw [if_pos hup, if_pos (by omega)]
  · rw [if_neg hup, if_neg (by omega)]

/-- A significand that rounding carried to `2 ^ 11` is halved. -/
theorem carryDown_eq {man : Nat} {exp : Int} (hman : man ≤ 2 ^ 11) (hexp : 0 ≤ exp) :
    carryDown man exp = if man = 2 ^ 11 then (2 ^ 10, exp + 1) else (man, exp) := by
  have hstop : ∀ {m : Nat} {e : Int}, m < 2 ^ 11 → 0 ≤ e → carryDown m e = (m, e) := by
    intro m e hm he
    rw [carryDown, if_neg]
    rintro (h | h)
    · have : 2 ^ 11 ≤ m := h
      omega
    · omega
  by_cases h : man = 2 ^ 11
  · rw [if_pos h, h, carryDown, if_pos (Or.inl (by decide))]
    rw [show 2 ^ 11 >>> 1 = 2 ^ 10 from by decide]
    exact hstop (by decide) (by omega)
  · rw [if_neg h]
    exact hstop (by omega) hexp

theorem getManBitLength_zero : getManBitLength 0 = 0 := by rw [getManBitLength, if_pos rfl]

theorem getManBitLength_lt (man : Nat) : man < 2 ^ getManBitLength man := by
  induction man using getManBitLength.induct with
  | case1 =>
    rw [getManBitLength, if_pos rfl]
    decide
  | case2 man h ih =>
    rw [getManBitLength, if_neg h, Nat.pow_succ]
    rw [Nat.shiftRight_eq_div_pow] at ih ⊢
    omega

theorem two_pow_getManBitLength_le {man : Nat} (h : man ≠ 0) :
    2 ^ getManBitLength man ≤ 2 * man := by
  induction man using getManBitLength.induct with
  | case1 => exact absurd rfl h
  | case2 man _ ih =>
    rw [getManBitLength, if_neg h, Nat.pow_succ]
    by_cases h1 : man >>> 1 = 0
    · rw [h1, getManBitLength, if_pos rfl]
      omega
    · have := ih h1
      rw [Nat.shiftRight_eq_div_pow] at this ⊢
      omega

end OpBase.Fp16
