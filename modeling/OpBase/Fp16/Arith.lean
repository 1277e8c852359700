import OpBase.Fp16.Basic
import OpBase.Lib.TwosComplement

/-!
# Sum, difference and product

`fp16Add`, `fp16Sub` and `fp16Mul`. The mantissas are `uint32_t`, a negative one its two's
complement; the bits that alignment and normalisation move out of a mantissa are collected
in `mTrunc`, from the top of the word on.
-/

namespace OpBase.Fp16

open OpBase.Lib
open FloatFormat (half)

def FP16_DENORM_SHIFT : Nat := 3

/-- `ExtractFP16` -/
def extractFP16 (val : Nat) : Nat × Nat × Nat :=
  let s := (val >>> 15) &&& 1
  let e := (val >>> 10) &&& FP16_MAX_EXP
  let m := (val &&& 0x3FF) ||| ((if 0 < (val >>> 10) &&& 0x1F then 1 else 0) * 0x400)
  (s, if e = 0 then 1 else e, m)

/-- `ReverseMan` -/
def reverseMan (negative : Bool) (man : Nat) : Nat :=
  if negative then (2 ^ 32 - 1 - man + 1) % 2 ^ 32 else man

/-- `RightShift` -/
def rightShift (man shift : Nat) : Nat :=
  (fun man => (man &&& FP32_SIGN_MASK) ||| (man >>> 1))^[shift] man

/-- `GetManSum` -/
def getManSum (ea ma eb mb : Nat) : Nat :=
  if eb < ea then (ma + rightShift mb (ea - eb)) % 2 ^ 32
  else if ea < eb then (rightShift ma (eb - ea) + mb) % 2 ^ 32
  else (ma + mb) % 2 ^ 32

/-! ## The sum -/

/-- The sign of the sum, the mantissas of the sum without it, and `shiftOut`. -/
def signedMans (sA eA mA sB eB mB : Nat) : Nat × Nat × Nat × Nat :=
  let (sum, sRet, mA, mB) :=
    if sA ≠ sB then
      let mA := reverseMan (0 < sA) mA
      let mB := reverseMan (0 < sB) mB
      let sum := getManSum eA mA eB mB % 2 ^ 16
      let sRet := (sum &&& FP16_SIGN_MASK) >>> FP16_SIGN_INDEX
      (sum, sRet, reverseMan (0 < sRet) mA, reverseMan (0 < sRet) mB)
    else (getManSum eA mA eB mB % 2 ^ 16, sA, mA, mB)
  if sum = 0 then
    (sRet, (mA <<< FP16_DENORM_SHIFT) % 2 ^ 32, (mB <<< FP16_DENORM_SHIFT) % 2 ^ 32,
      FP16_DENORM_SHIFT)
  else (sRet, mA, mB, 0)

/-- `mRet` and `mTrunc` of the mantissas, the one of the smaller exponent moved. -/
def alignMans (eA mA eB mB : Nat) : Nat × Nat :=
  if eB < eA then
    ((mA + rightShift mB (eA - eB)) % 2 ^ 16, (mB <<< (FP32_BIT_LENGTH - (eA - eB))) % 2 ^ 32)
  else if eA < eB then
    ((rightShift mA (eB - eA) + mB) % 2 ^ 16, (mA <<< (FP32_BIT_LENGTH - (eB - eA))) % 2 ^ 32)
  else ((mA + mB) % 2 ^ 16, 0)

/-- `while (mRet < m_min && eRet > 0)` -/
def shiftUp (mMin : Nat) : Nat → Nat → Nat → Nat × Nat × Nat
  | mRet, mTrunc, 0 => (mRet, mTrunc, 0)
  | mRet, mTrunc, eRet + 1 =>
    if mRet < mMin then
      shiftUp mMin (((mRet <<< 1) % 2 ^ 16 + (FP32_SIGN_MASK &&& mTrunc) >>> FP32_SIGN_INDEX)
        % 2 ^ 16) ((mTrunc <<< 1) % 2 ^ 32) eRet
    else (mRet, mTrunc, eRet + 1)

/-- `m_max` -/
def manMax (shiftOut : Nat) : Nat := (FP16_MAN_HIDE_BIT <<< shiftOut) <<< 1

theorem manMax_eq (shiftOut : Nat) : manMax shiftOut = 2 ^ (11 + shiftOut) := by
  unfold manMax FP16_MAN_HIDE_BIT
  rw [Nat.shiftLeft_eq, Nat.shiftLeft_eq, Nat.pow_add]
  ring

/-- The first `while (mRet >= m_max)` -/
def shiftDown (shiftOut mRet mTrunc eRet : Nat) : Nat × Nat × Nat :=
  if manMax shiftOut ≤ mRet then
    shiftDown shiftOut (mRet >>> 1) ((mTrunc >>> 1) ||| (FP32_SIGN_MASK * (mRet &&& 1))) (eRet + 1)
  else (mRet, mTrunc, eRet)
termination_by mRet
decreasing_by
  have := Nat.two_pow_pos (11 + shiftOut)
  rw [Nat.shiftRight_eq_div_pow]
  rw [manMax_eq] at *
  omega

/-- The second one, behind the rounding. -/
def carryUp (shiftOut mRet eRet : Nat) : Nat × Nat :=
  if manMax shiftOut ≤ mRet then carryUp shiftOut (mRet >>> 1) (eRet + 1) else (mRet, eRet)
termination_by mRet
decreasing_by
  have := Nat.two_pow_pos (11 + shiftOut)
  rw [Nat.shiftRight_eq_div_pow]
  rw [manMax_eq] at *
  omega

/-- Exponent and mantissa of a sum before `Fp16Normalize`. -/
def roundSum (shiftOut mRet mTrunc eRet : Nat) : Nat × Nat :=
  let (mRet, mTrunc, eRet) := shiftUp (FP16_MAN_HIDE_BIT <<< shiftOut) mRet mTrunc eRet
  let (mRet, mTrunc, eRet) := shiftDown shiftOut mRet mTrunc eRet
  let (mRet, eRet) := carryUp shiftOut (roundTrunc mTrunc mRet shiftOut) eRet
  (eRet, if eRet = 0 ∧ mRet ≤ manMax shiftOut then mRet >>> 1 else mRet)

/-- `fp16Add` -/
def fp16Add (v1 v2 : Nat) : Nat :=
  let (sA, eA, mA) := extractFP16 v1
  let (sB, eB, mB) := extractFP16 v2
  let (sRet, mA, mB, shiftOut) := signedMans sA eA mA sB eB mB
  let (mRet, mTrunc) := alignMans eA mA eB mB
  normalConstructor sRet (roundSum shiftOut mRet mTrunc (max eA eB))

/-- `fp16Sub` -/
def fp16Sub (v1 v2 : Nat) : Nat :=
  fp16Add v1 (((2 ^ 16 - 1 - v2) &&& FP16_SIGN_MASK) ||| (v2 &&& FP16_ABS_MAX))

/-! ## The product -/

/-- `while (mulM < mMin && eRet > 1)` -/
def mulUp (mulM : Nat) (eRet : Int) : Nat × Int :=
  if mulM < FP16_MAN_HIDE_BIT ∧ 1 < eRet then mulUp ((mulM <<< 1) % 2 ^ 32) (eRet - 1)
  else (mulM, eRet)
termination_by eRet.toNat
decreasing_by omega

/-- `while (mulM >= mMax || eRet < 1)` -/
def mulDown (mulM mTrunc : Nat) (eRet : Int) : Nat × Nat × Int :=
  if FP16_MAN_HIDE_BIT <<< 1 ≤ mulM ∨ eRet < 1 then
    mulDown (mulM >>> 1) ((mTrunc >>> 1) ||| (FP32_SIGN_MASK * (mulM &&& 1))) (eRet + 1)
  else (mulM, mTrunc, eRet)
termination_by mulM + (1 - eRet).toNat
decreasing_by
  rename_i h
  rw [Nat.shiftRight_eq_div_pow]
  rcases h with h | h
  · have : 2048 ≤ mulM := h
    omega
  · omega

/-- `fp16Mul`. Behind the second loop the exponent is positive, and it does not fall. -/
def fp16Mul (v1 v2 : Nat) : Nat :=
  let (sA, eA, mA) := extractFP16 v1
  let (sB, eB, mB) := extractFP16 v2
  let (mulM, eRet) := mulUp ((mA * mB) % 2 ^ 32) ((eA : Int) + eB - FP16_EXP_BIAS - 10)
  let (mulM, mTrunc, eRet) := mulDown mulM 0 eRet
  let (mulM, eRet) := carryDown (roundTrunc mTrunc mulM 0) eRet
  let eRet := if eRet = 1 ∧ mulM < FP16_MAN_HIDE_BIT then 0 else eRet
  normalConstructor (sA ^^^ sB) (eRet.toNat, mulM % 2 ^ 16)

/-! ## Operands -/

/-- Sign, exponent and significand of a finite operand; a subnormal one has exponent 1 and no
hidden bit. -/
structure Fields (v s e m : Nat) : Prop where
  sign : s = if half.negative v then 1 else 0
  exp_pos : 1 ≤ e
  exp_le : e ≤ 30
  hidden : 2 ^ 10 ≤ m ∨ e = 1
  man_lt : m < 2 ^ 11
  magnitude : half.magnitude v = m * 2 ^ (e - 1) * half.unit

theorem Fields.sign_lt {v s e m : Nat} (h : Fields v s e m) : s < 2 := by
  rw [h.sign]
  split
  · decide
  · decide

/-- The fields of a finite half: sign, exponent and significand. -/
theorem extractFP16_fields {v : Nat} (hv : half.code v < half.infinity) :
    Fields v (extractFP16 v).1 (extractFP16 v).2.1 (extractFP16 v).2.2 := by
  have hs : (v >>> 15) &&& 1 = v / 2 ^ 15 % 2 := by
    rw [Nat.and_one_is_mod, Nat.shiftRight_eq_div_pow]
  have he : (v >>> 10) &&& FP16_MAX_EXP = v / 2 ^ 10 % 2 ^ 5 := by
    rw [Nat.shiftRight_eq_div_pow]
    exact Nat.and_two_pow_sub_one_eq_mod _ 5
  have hm : v &&& 0x3FF = v % 2 ^ 10 := Nat.and_two_pow_sub_one_eq_mod _ 10
  have hcode : half.code v = v / 2 ^ 10 % 2 ^ 5 * 2 ^ 10 + v % 2 ^ 10 := by
    rw [half_code]
    omega
  rw [hcode, half_infinity] at hv
  have hsign : v / 2 ^ 15 % 2 = if half.negative v then 1 else 0 := by
    rw [half_negative]
    by_cases h : v / 2 ^ 15 % 2 = 1
    · rw [decide_eq_true h, if_pos rfl, h]
    · rw [decide_eq_false h, if_neg Bool.false_ne_true]
      omega
  have hlow := Nat.mod_lt v (Nat.two_pow_pos 10)
  unfold extractFP16
  simp only [hs, he, hm]
  rw [show (v >>> 10) &&& 0x1F = v / 2 ^ 10 % 2 ^ 5 from he]
  generalize v / 2 ^ 10 % 2 ^ 5 = exp at *
  generalize v % 2 ^ 10 = man at *
  -- A subnormal is read at exponent 1 and without a hidden bit.
  by_cases h0 : exp = 0
  · subst h0
    simp only [Nat.lt_irrefl, if_false, if_true, Nat.zero_mul, Nat.or_zero]
    refine ⟨hsign, le_rfl, by decide, Or.inr rfl, by omega, ?_⟩
    exact half.magnitude_place (e := 0) hcode (Or.inr rfl) (by
      show man ≤ 2 ^ 11
      omega)
  · have hor : man ||| 1 * 0x400 = 2 ^ 10 + man := by
      have := Nat.two_pow_add_eq_or_of_lt hlow 1
      rw [Nat.mul_one] at this
      rw [this, Nat.or_comm]
    have hpos : 0 < exp := Nat.pos_of_ne_zero h0
    rw [if_pos hpos, hor, if_neg h0]
    refine ⟨hsign, hpos, by omega, Or.inl (Nat.le_add_right _ _), by omega, ?_⟩
    refine half.magnitude_place (e := exp - 1) ?_ (Or.inl (Nat.le_add_right _ _)) ?_
    · rw [hcode]
      show exp * 2 ^ 10 + man = (exp - 1) * 2 ^ 10 + (2 ^ 10 + man)
      omega
    · show 2 ^ 10 + man ≤ 2 ^ 11
      omega

/-! ## What the normalisation makes of a number -/

/-- The code that number `n` gets: behind the last finite one, the exponent is cut to that of
infinity, but the mantissa stays. -/
def wrapped (n : Nat) : Nat := if n < 31 * 2 ^ 10 then n else 31 * 2 ^ 10 + n % 2 ^ 10

theorem normalCode_wrapped {e m : Nat} (hlo : 2 ^ 10 ≤ m) (hhi : m < 2 ^ 11) :
    normalCode (e + 1, m) = wrapped (e * 2 ^ 10 + m) := by
  have hmod : (e * 2 ^ 10 + m) % 2 ^ 10 = m % 2 ^ 10 := by
    rw [Nat.mul_comm, Nat.mul_add_mod]
  by_cases he : e + 1 ≤ 30
  · unfold wrapped
    rw [normalCode_normal (by omega), Nat.min_eq_left (by omega), if_pos (by omega)]
    omega
  · have hge := Nat.mul_le_mul_right (2 ^ 10) (show 30 ≤ e by omega)
    have hbig : 31 * 2 ^ 10 ≤ e * 2 ^ 10 + m :=
      (show 31 * 2 ^ 10 = 30 * 2 ^ 10 + 2 ^ 10 by decide).le.trans (Nat.add_le_add hge hlo)
    unfold wrapped
    rw [normalCode_normal (by omega), Nat.min_eq_right (by omega), if_neg (Nat.not_lt.mpr hbig),
      hmod]

/-- Exponent and mantissa are those of the number nearest to `x`. -/
def CodesWrapped (x : ℚ) (em : Nat × Nat) : Prop :=
  ∃ n, NearestEven (grid 10 half.unit) x n ∧ normalCode em = wrapped n

/-- A place of the grid, as exponent and significand after rounding. -/
theorem codesWrapped_place {x : ℚ} {e m up : Nat} (hm : m < 2 ^ 11) (hlo : 2 ^ 10 ≤ m)
    (hup : up ≤ 1) (hn : NearestEven (grid 10 half.unit) x (e * 2 ^ 10 + m + up)) :
    CodesWrapped x (if m + up = 2 ^ 11 then (e + 2, 2 ^ 10) else (e + 1, m + up)) := by
  refine ⟨_, hn, ?_⟩
  by_cases hcarry : m + up = 2 ^ 11
  · have hnum : e * 2 ^ 10 + m + up = (e + 1) * 2 ^ 10 + 2 ^ 10 := by
      rw [Nat.add_assoc, hcarry]
      ring
    rw [if_pos hcarry, hnum, ← normalCode_wrapped (e := e + 1) le_rfl (by decide)]
  · rw [if_neg hcarry, normalCode_wrapped (by omega) (by omega), Nat.add_assoc]

/-! ## The loops of the sum -/

theorem doubled_word (m t : Nat) :
    (2 * m + t / 2 ^ 31) * 2 ^ 32 + 2 * (t % 2 ^ 31) = (m * 2 ^ 32 + t) * 2 := by
  have hdiv := Nat.div_add_mod t (2 ^ 31)
  generalize t / 2 ^ 31 = q at *
  generalize t % 2 ^ 31 = r at *
  rw [← hdiv]
  ring

/-- By induction on the exponent: the shift up keeps the value, until the significand is large
enough or the exponent is zero. -/
theorem shiftUp_spec {mMin : Nat} (hmin : mMin ≤ 2 ^ 15) : ∀ {e m t : Nat}, t < 2 ^ 32 →
    ∃ k m' t', shiftUp mMin m t e = (m', t', e - k) ∧ k ≤ e ∧ t' < 2 ^ 32 ∧
      m' * 2 ^ 32 + t' = (m * 2 ^ 32 + t) * 2 ^ k ∧ (k = e ∨ mMin ≤ m') ∧
      (k = 0 ∨ m' < 2 * mMin) ∧ (m < mMin → 0 < e → 0 < k)
  | 0, m, t, ht => ⟨0, m, t, rfl, le_rfl, ht, by rw [pow_zero, Nat.mul_one], Or.inl rfl,
      Or.inl rfl, fun _ h => absurd h (Nat.lt_irrefl 0)⟩
  | e + 1, m, t, ht => by
    by_cases hm : m < mMin
    -- One step doubles the pair, mantissa and truncated word, as one number.
    · have hbit : (FP32_SIGN_MASK &&& t) >>> FP32_SIGN_INDEX = t / 2 ^ 31 := by
        rw [Nat.shiftRight_and_distrib, Nat.shiftRight_eq_div_pow, Nat.shiftRight_eq_div_pow]
        show 1 &&& t / 2 ^ 31 = _
        rw [Nat.and_comm, Nat.and_one_is_mod]
        omega
      have hman : ((m <<< 1) % 2 ^ 16 + t / 2 ^ 31) % 2 ^ 16 = 2 * m + t / 2 ^ 31 := by
        rw [Nat.shiftLeft_eq, pow_one]
        omega
      have htrunc : (t <<< 1) % 2 ^ 32 = 2 * (t % 2 ^ 31) := by
        rw [Nat.shiftLeft_eq, pow_one]
        omega
      obtain ⟨k, m', t', hrun, hk, ht', hval, hend, hsmall, -⟩ :=
        shiftUp_spec hmin (e := e) (m := 2 * m + t / 2 ^ 31) (t := 2 * (t % 2 ^ 31)) (by omega)
      refine ⟨k + 1, m', t', ?_, by omega, ht', ?_, by omega, Or.inr ?_, fun _ _ => by omega⟩
      · rw [shiftUp, if_pos hm, hbit, hman, htrunc, hrun, Nat.add_sub_add_right]
      · rw [hval, doubled_word]
        ring
      · rcases hsmall with hk0 | hlt
        · rw [hk0, pow_zero] at hval
          omega
        · exact hlt
    · refine ⟨0, m, t, ?_, Nat.zero_le _, ht, by rw [pow_zero, Nat.mul_one], Or.inr (by omega),
        Or.inl rfl, fun h => absurd h hm⟩
      rw [shiftUp, if_neg hm, Nat.sub_zero]

theorem shiftDown_stop {s m : Nat} (hm : m < 2 ^ (11 + s)) (t e : Nat) :
    shiftDown s m t e = (m, t, e) := by
  rw [shiftDown, if_neg (by rw [manMax_eq]; omega)]

/-- One place down at most, and nothing is lost of an even `mTrunc`. -/
theorem shiftDown_spec {m t e : Nat} (hm : m < 2 ^ 12) (ht : t < 2 ^ 32) :
    shiftDown 0 m t e =
      if 2 ^ 11 ≤ m then (m / 2, t / 2 + 2 ^ 31 * (m % 2), e + 1) else (m, t, e) := by
  by_cases h : 2 ^ 11 ≤ m
  · have hor : (t >>> 1) ||| (FP32_SIGN_MASK * (m &&& 1)) = t / 2 + 2 ^ 31 * (m % 2) := by
      have hlow : t / 2 < 2 ^ 31 := by omega
      rw [Nat.and_one_is_mod, Nat.shiftRight_eq_div_pow, pow_one, Nat.or_comm, Nat.add_comm]
      exact (Nat.two_pow_add_eq_or_of_lt hlow (m % 2)).symm
    rw [if_pos h, shiftDown, if_pos (by rw [manMax_eq]; exact h), hor, Nat.shiftRight_eq_div_pow,
      pow_one, shiftDown_stop (by omega)]
  · rw [if_neg h, shiftDown_stop (by omega)]

/-- A significand that has reached its limit is halved. -/
theorem carryUp_spec {s m e : Nat} (hm : m ≤ 2 ^ (11 + s)) :
    carryUp s m e = if m = 2 ^ (11 + s) then (2 ^ (10 + s), e + 1) else (m, e) := by
  have hpow : 2 ^ (11 + s) = 2 * 2 ^ (10 + s) := by
    rw [show 11 + s = (10 + s) + 1 by omega, Nat.pow_succ, Nat.mul_comm]
  have hpos := Nat.two_pow_pos (10 + s)
  have hstop : ∀ {m e : Nat}, m < 2 ^ (11 + s) → carryUp s m e = (m, e) := by
    intro m e hm
    rw [carryUp, if_neg (by rw [manMax_eq]; omega)]
  by_cases h : m = 2 ^ (11 + s)
  · rw [if_pos h, carryUp, if_pos (by rw [manMax_eq]; omega), h, Nat.shiftRight_eq_div_pow, pow_one,
      hpow, Nat.mul_div_cancel_left _ (by decide), hstop (by omega)]
  · rw [if_neg h, hstop (by omega)]

end OpBase.Fp16
