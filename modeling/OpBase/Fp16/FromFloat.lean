import OpBase.Fp16.Basic

/-!
# From `float` and `double`

`fp16_t::operator=(const float &)` and `fp16_t::operator=(const double &)`. The two bodies
are one, with the constants of the two formats; `FloatLayout` has those constants.

> `assign_converts`: every pattern, of a number, an infinity or a NaN, becomes what rounding
> to nearest, ties to even, makes of it.
-/

namespace OpBase.Fp16

open OpBase.Lib
open FloatFormat (double half single)

/-- The constants in which the two conversions differ. The last five are exponents: of the
infinities, from which on, and up to which, a number has no normal half, and of the
smallest half and half of that. -/
structure FloatLayout where
  signMask : Nat
  signIndex : Nat
  expMask : Nat
  manMask : Nat
  manLen : Nat
  hideBit : Nat
  nanExp : Nat
  overflowExp : Nat
  underflowExp : Nat
  denormExp : Nat
  belowExp : Nat

/-- `FP32_*`, and the literals of `operator=(const float &)` -/
def fp32Layout : FloatLayout where
  signMask := 0x80000000
  signIndex := 31
  expMask := 0x7F800000
  manMask := 0x007FFFFF
  manLen := 23
  hideBit := 0x00800000
  nanExp := 0xFF
  overflowExp := 0x8F
  underflowExp := 0x70
  denormExp := 0x67
  belowExp := 0x66

/-- `FP64_*`, and the literals of `operator=(const double &)` -/
def fp64Layout : FloatLayout where
  signMask := 0x8000000000000000
  signIndex := 63
  expMask := 0x7FF0000000000000
  manMask := 0x000FFFFFFFFFFFFF
  manLen := 52
  hideBit := 0x0010000000000000
  nanExp := 0x7FF
  overflowExp := 0x40F
  underflowExp := 0x3F0
  denormExp := 0x3E7
  belowExp := 0x3E6

/-- The exponent and the mantissa before `Fp16Normalize`, from the fields of the pattern. -/
def FloatLayout.round (l : FloatLayout) (eF mF : Nat) : Nat × Nat :=
  if l.overflowExp ≤ eF then
    (FP16_MAX_EXP, if mF ≠ 0 ∧ eF = l.nanExp then 0x3FF else 0)
  else if eF ≤ l.underflowExp then
    if l.denormExp ≤ eF then
      let mF := mF ||| l.hideBit
      let mTmp := (mF <<< (eF - l.denormExp)) % 2 ^ 64
      (0, ((mTmp >>> l.manLen) % 2 ^ 16 + (isRoundOne mTmp l.manLen).toNat) % 2 ^ 16)
    else if eF = l.belowExp ∧ 0 < mF then (0, 1)
    else (0, 0)
  else
    let lenDelta := l.manLen - FP16_MAN_LEN
    let mRet := ((mF >>> lenDelta) % 2 ^ 16 + (isRoundOne mF lenDelta).toNat) % 2 ^ 16
    -- the carry out of the mantissa
    if mRet &&& FP16_MAN_HIDE_BIT ≠ 0 then (eF - l.underflowExp + 1, mRet)
    else (eF - l.underflowExp, mRet)

def FloatLayout.assign (l : FloatLayout) (v : Nat) : Nat :=
  let sRet := (v &&& l.signMask) >>> l.signIndex
  let eF := (v &&& l.expMask) >>> l.manLen
  let mF := v &&& l.manMask
  normalConstructor sRet (l.round eF mF)

/-- `fp16_t::operator=(const float &)` -/
def assignFloat (v : UInt32) : Nat := fp32Layout.assign v.toNat

/-- `fp16_t::operator=(const double &)` -/
def assignDouble (v : UInt64) : Nat := fp64Layout.assign v.toNat

/-! ## The fields -/

/-- The constants are those of the format `F`, whose exponent bias is `bias`. -/
structure FloatLayout.For (l : FloatLayout) (F : FloatFormat) (bias : Nat) : Prop where
  signMask : l.signMask = 2 ^ (F.expBits + F.manBits)
  signIndex : l.signIndex = F.expBits + F.manBits
  expMask : l.expMask = (2 ^ F.expBits - 1) * 2 ^ F.manBits
  manMask : l.manMask = 2 ^ F.manBits - 1
  manLen : l.manLen = F.manBits
  hideBit : l.hideBit = 2 ^ F.manBits
  nanExp : l.nanExp = 2 ^ F.expBits - 1
  overflowExp : l.overflowExp = bias + 16
  underflowExp : l.underflowExp + 15 = bias
  denormExp : l.denormExp + 24 = bias
  belowExp : l.belowExp + 25 = bias
  -- numbers of half the smallest half, and less, are normal in `F`
  low : 25 < bias
  high : bias + 16 < l.nanExp
  -- room for the two bits behind the cut, and for the widest shift
  long : 12 ≤ F.manBits
  short : F.manBits ≤ 52
  unit : F.unit * 2 ^ (F.manBits + bias - 25) = half.unit

/-- The masks are those of a float. -/
theorem fp32Layout_for : fp32Layout.For single 127 where
  signMask := by decide
  signIndex := rfl
  expMask := by decide
  manMask := by decide
  manLen := rfl
  hideBit := by decide
  nanExp := by decide
  overflowExp := rfl
  underflowExp := rfl
  denormExp := rfl
  belowExp := rfl
  low := by decide
  high := by decide
  long := by decide
  short := by decide
  unit := by
    unfold FloatFormat.unit single half
    rw [← zpow_natCast, ← zpow_add₀ two_ne_zero]
    rfl

/-- The masks are those of a double. -/
theorem fp64Layout_for : fp64Layout.For double 1023 where
  signMask := by decide
  signIndex := rfl
  expMask := by decide
  manMask := by decide
  manLen := rfl
  hideBit := by decide
  nanExp := by decide
  overflowExp := rfl
  underflowExp := rfl
  denormExp := rfl
  belowExp := rfl
  low := by decide
  high := by decide
  long := by decide
  short := by decide
  unit := by
    unfold FloatFormat.unit double half
    rw [← zpow_natCast, ← zpow_add₀ two_ne_zero]
    rfl

section Fields

variable {l : FloatLayout} {F : FloatFormat} {bias : Nat}

theorem FloatLayout.For.man_eq (hl : l.For F bias) (v : Nat) :
    v &&& l.manMask = v % 2 ^ F.manBits := by
  rw [hl.manMask, Nat.and_two_pow_sub_one_eq_mod]

theorem FloatLayout.For.exp_eq (hl : l.For F bias) (v : Nat) :
    (v &&& l.expMask) >>> l.manLen = v / 2 ^ F.manBits % 2 ^ F.expBits := by
  have hmask : ((2 ^ F.expBits - 1) * 2 ^ F.manBits) >>> F.manBits = 2 ^ F.expBits - 1 := by
    rw [Nat.shiftRight_eq_div_pow, Nat.mul_div_cancel _ (Nat.two_pow_pos _)]
  rw [hl.expMask, hl.manLen, Nat.shiftRight_and_distrib, hmask, Nat.and_two_pow_sub_one_eq_mod,
    Nat.shiftRight_eq_div_pow]

theorem FloatLayout.For.sign_eq (hl : l.For F bias) (v : Nat) :
    (v &&& l.signMask) >>> l.signIndex = v / 2 ^ (F.expBits + F.manBits) % 2 := by
  have hmask : 2 ^ (F.expBits + F.manBits) >>> (F.expBits + F.manBits) = 1 := by
    rw [Nat.shiftRight_eq_div_pow, Nat.div_self (Nat.two_pow_pos _)]
  rw [hl.signMask, hl.signIndex, Nat.shiftRight_and_distrib, hmask, Nat.and_one_is_mod,
    Nat.shiftRight_eq_div_pow]

theorem code_eq_fields (F : FloatFormat) (v : Nat) :
    F.code v = v / 2 ^ F.manBits % 2 ^ F.expBits * 2 ^ F.manBits + v % 2 ^ F.manBits := by
  rw [FloatFormat.code, Nat.add_comm F.expBits, Nat.pow_add, Nat.mod_mul, Nat.add_comm,
    Nat.mul_comm]

end Fields

/-! ## The rounding -/

/-- Exponent and mantissa are code of the nearest half or of infinity. -/
def CodesNearest (x : ℚ) (em : Nat × Nat) : Prop :=
  ∃ n, NearestEven (grid 10 half.unit) x n ∧ normalCode em = min n half.infinity

theorem roundUp_add_even {k : Nat} (hk : k % 2 = 0) (n r t : Nat) :
    roundUp (k + n) r t = roundUp n r t := by
  unfold roundUp
  rw [show (k + n) % 2 = n % 2 by omega]

section Rounding

variable {l : FloatLayout} {F : FloatFormat} {bias e m : Nat}

section

variable (hl : l.For F bias) {v : Nat}
include hl

theorem FloatLayout.For.nearest_normal (he : 1 ≤ e) (hm : m < 2 ^ F.manBits) {a b t j : Nat}
    (hcode : F.code v = e * 2 ^ F.manBits + m) (ha : a + j = e - 1)
    (hcut : a + t = b + (F.manBits + bias - 25))
    (h : 2 ^ 10 ≤ (2 ^ F.manBits + m) * 2 ^ j / 2 ^ t ∨ b = 0)
    (hlt : (2 ^ F.manBits + m) * 2 ^ j / 2 ^ t < 2 ^ 11) :
    NearestEven (grid 10 half.unit) (F.magnitude v)
      (b * 2 ^ 10 + (2 ^ F.manBits + m) * 2 ^ j / 2 ^ t +
        roundUp ((2 ^ F.manBits + m) * 2 ^ j / 2 ^ t) ((2 ^ F.manBits + m) * 2 ^ j % 2 ^ t) t) := by
  have hplace : F.code v = (e - 1) * 2 ^ F.manBits + (2 ^ F.manBits + m) := by
    obtain ⟨k, rfl⟩ := Nat.exists_eq_add_of_le' he
    rw [hcode, Nat.add_sub_cancel]
    ring
  refine nearestEven_cut (by decide) half.unit_pos ?_ hl.unit hcut h hlt
  rw [F.magnitude_place hplace (Or.inl (Nat.le_add_right _ _))
    (by rw [Nat.pow_succ]; omega), ← ha, pow_add]
  push_cast
  ring

theorem FloatLayout.For.nearest_zero {x : ℚ} {M a t : Nat}
    (hx : x = M * 2 ^ a * F.unit) (hcut : a + t = F.manBits + bias - 25) (hM : 2 * M < 2 ^ t) :
    NearestEven (grid 10 half.unit) x 0 := by
  have hdiv : M / 2 ^ t = 0 := Nat.div_eq_of_lt (by omega)
  have hmod : M % 2 ^ t = M := Nat.mod_eq_of_lt (by omega)
  have hn := nearestEven_cut (p := 10) (a := a) (b := 0) (t := t) (by decide)
    half.unit_pos hx hl.unit (by omega) (Or.inr rfl) (by rw [hdiv]; decide)
  have hround : roundUp 0 M t = 0 := if_neg (by omega)
  rwa [hdiv, hmod, hround] at hn

section

variable (hm : m < 2 ^ F.manBits)
include hm

/-- A number not too small for a normal half keeps `m / 2 ^ t` of its mantissa. -/
theorem FloatLayout.For.nearest_fields (hlo : l.underflowExp < e) {t : Nat}
    (hcode : F.code v = e * 2 ^ F.manBits + m) (hL : F.manBits = 10 + t) :
    m / 2 ^ t < 2 ^ 10 ∧ NearestEven (grid 10 half.unit) (F.magnitude v)
        ((e - l.underflowExp) * 2 ^ 10 + (m / 2 ^ t + roundUp (m / 2 ^ t) (m % 2 ^ t) t)) := by
  have hlow := hl.underflowExp
  have hbias := hl.low
  obtain ⟨k, he⟩ := Nat.exists_eq_add_of_lt hlo
  have hpow : 2 ^ F.manBits = 2 ^ 10 * 2 ^ t := by rw [hL, Nat.pow_add]
  have hq : m / 2 ^ t < 2 ^ 10 := Nat.div_lt_of_lt_mul (by rw [Nat.mul_comm, ← hpow]; exact hm)
  have hdiv : (2 ^ F.manBits + m) * 2 ^ 0 / 2 ^ t = 2 ^ 10 + m / 2 ^ t := by
    rw [hpow, pow_zero, Nat.mul_one, Nat.add_comm, Nat.add_mul_div_right _ _ (Nat.two_pow_pos t),
      Nat.add_comm]
  have hmod : (2 ^ F.manBits + m) * 2 ^ 0 % 2 ^ t = m % 2 ^ t := by
    rw [hpow, pow_zero, Nat.mul_one, Nat.add_comm, Nat.add_mul_mod_self_right]
  have hn := hl.nearest_normal (a := e - 1) (b := k) (t := t) (j := 0) (by omega) hm hcode rfl
    (by omega) (Or.inl (hdiv ▸ Nat.le_add_right _ _)) (by rw [hdiv]; omega)
  rw [hdiv, hmod, roundUp_add_even (by decide)] at hn
  have hnumber : k * 2 ^ 10 + (2 ^ 10 + m / 2 ^ t) + roundUp (m / 2 ^ t) (m % 2 ^ t) t =
      (e - l.underflowExp) * 2 ^ 10 + (m / 2 ^ t + roundUp (m / 2 ^ t) (m % 2 ^ t) t) := by
    rw [show e - l.underflowExp = k + 1 by omega]
    ring
  exact ⟨hq, hnumber ▸ hn⟩

/-- Rounding into the normal halves, and above them. -/
theorem FloatLayout.For.round_normal (hlo : l.underflowExp < e) (hhi : e < l.overflowExp)
    (hcode : F.code v = e * 2 ^ F.manBits + m) : CodesNearest (F.magnitude v) (l.round e m) := by
  have hlow := hl.underflowExp
  have hover := hl.overflowExp
  have hlong := hl.long
  have hshort := hl.short
  obtain ⟨t, hL⟩ := Nat.exists_eq_add_of_le (show 10 ≤ F.manBits by omega)
  obtain ⟨hq, hn⟩ := hl.nearest_fields hm hlo hcode hL
  refine ⟨_, hn, ?_⟩
  have hround := isRoundOne_toNat m (t := t) (by omega) (by omega)
  have hle := roundUp_le_one (m / 2 ^ t) (m % 2 ^ t) t
  have hdelta : l.manLen - FP16_MAN_LEN = t := by
    rw [hl.manLen, hL]
    exact Nat.add_sub_cancel_left 10 t
  unfold FloatLayout.round
  simp only [hdelta, hround, Nat.shiftRight_eq_div_pow]
  generalize roundUp (m / 2 ^ t) (m % 2 ^ t) t = up at *
  generalize m / 2 ^ t = q at *
  rw [if_neg (by omega), if_neg (by omega), Nat.mod_eq_of_lt (show q < 2 ^ 16 by omega),
    Nat.mod_eq_of_lt (show q + up < 2 ^ 16 by omega), half_infinity]
  -- The hidden bit shows after rounding exactly when the mantissa carried over.
  have hbit : (q + up) &&& FP16_MAN_HIDE_BIT ≠ 0 ↔ q + up = 2 ^ 10 := by
    rw [← Nat.pos_iff_ne_zero]
    show 0 < (q + up) &&& 2 ^ 10 ↔ _
    rw [and_two_pow_pos]
    omega
  have hk : e - l.underflowExp + 1 ≤ 31 := by omega
  have hmax : (e - l.underflowExp + 1) * 2 ^ 10 ≤ 31 * 2 ^ 10 := Nat.mul_le_mul_right _ hk
  rw [Nat.add_mul, Nat.one_mul] at hmax
  by_cases hcarry : q + up = 2 ^ 10
  · rw [if_pos (hbit.mpr hcarry), normalCode_normal (by omega), Nat.min_eq_left hk, hcarry,
      Nat.mod_self, Nat.add_zero, Nat.add_mul, Nat.one_mul, Nat.min_eq_left hmax]
  · have hlt : q + up < 2 ^ 10 := by omega
    rw [if_neg (mt hbit.mp hcarry), normalCode_normal (by omega), Nat.min_eq_left (by omega),
      Nat.mod_eq_of_lt hlt,
      Nat.min_eq_left ((Nat.add_le_add_left hlt.le _).trans hmax)]

theorem FloatLayout.For.round_overflow (hlo : l.overflowExp ≤ e) (hhi : e < l.nanExp)
    (hcode : F.code v = e * 2 ^ F.manBits + m) : CodesNearest (F.magnitude v) (l.round e m) := by
  have hlow := hl.underflowExp
  have hover := hl.overflowExp
  have hlong := hl.long
  obtain ⟨t, hL⟩ := Nat.exists_eq_add_of_le (show 10 ≤ F.manBits by omega)
  obtain ⟨-, hn⟩ := hl.nearest_fields hm (by omega) hcode hL
  refine ⟨_, hn, ?_⟩
  have hround : l.round e m = (31, 0) := by
    unfold FloatLayout.round
    rw [if_pos hlo, if_neg (fun hc => by omega)]
    rfl
  rw [hround, normalCode_normal (by decide), half_infinity]
  have hbig : 31 * 2 ^ 10 ≤ (e - l.underflowExp) * 2 ^ 10 :=
    Nat.mul_le_mul_right _ (by omega)
  rw [Nat.min_eq_right (hbig.trans (Nat.le_add_right _ _))]
  rfl

/-- Rounding into the subnormal halves. -/
theorem FloatLayout.For.round_denorm (hlo : l.denormExp ≤ e) (hhi : e ≤ l.underflowExp)
    (hcode : F.code v = e * 2 ^ F.manBits + m) : CodesNearest (F.magnitude v) (l.round e m) := by
  have hunder := hl.underflowExp
  have hover := hl.overflowExp
  have hdenorm := hl.denormExp
  have hlong := hl.long
  have hshort := hl.short
  have hbias := hl.low
  obtain ⟨j, he⟩ := Nat.exists_eq_add_of_le hlo
  have hj : j ≤ 9 := by omega
  have hpow : 2 ^ j ≤ 2 ^ 9 := Nat.pow_le_pow_right (by decide) hj
  -- the shifted significand has at most ten bits in front of the cut
  have hbig : (2 ^ F.manBits + m) * 2 ^ j < 2 ^ F.manBits * 2 ^ 10 :=
    calc (2 ^ F.manBits + m) * 2 ^ j < (2 * 2 ^ F.manBits) * 2 ^ j :=
          Nat.mul_lt_mul_of_pos_right (by omega) (Nat.two_pow_pos j)
      _ ≤ (2 * 2 ^ F.manBits) * 2 ^ 9 := Nat.mul_le_mul_left _ hpow
      _ = 2 ^ F.manBits * 2 ^ 10 := by ring
  have hfit : (2 ^ F.manBits + m) * 2 ^ j < 2 ^ 64 :=
    calc (2 ^ F.manBits + m) * 2 ^ j < 2 ^ F.manBits * 2 ^ 10 := hbig
      _ = 2 ^ (F.manBits + 10) := (Nat.pow_add _ _ _).symm
      _ ≤ 2 ^ 64 := Nat.pow_le_pow_right (by decide) (by omega)
  have hq : (2 ^ F.manBits + m) * 2 ^ j / 2 ^ F.manBits < 2 ^ 10 := Nat.div_lt_of_lt_mul hbig
  have hn := hl.nearest_normal (a := bias - 25) (b := 0) (t := F.manBits) (j := j) (by omega) hm
    hcode (by omega) (by omega) (Or.inr rfl) (by omega)
  rw [Nat.zero_mul, Nat.zero_add] at hn
  refine ⟨_, hn, ?_⟩
  have hround := isRoundOne_toNat ((2 ^ F.manBits + m) * 2 ^ j) (t := F.manBits)
    (by omega) (by omega)
  have hle := roundUp_le_one ((2 ^ F.manBits + m) * 2 ^ j / 2 ^ F.manBits)
    ((2 ^ F.manBits + m) * 2 ^ j % 2 ^ F.manBits) F.manBits
  have hor : m ||| 2 ^ F.manBits = 2 ^ F.manBits + m := by
    have := Nat.two_pow_add_eq_or_of_lt hm 1
    rw [Nat.mul_one] at this
    rw [this, Nat.or_comm]
  have hshift : e - l.denormExp = j := by omega
  unfold FloatLayout.round
  rw [if_neg (by omega), if_pos hhi, if_pos hlo]
  simp only [hl.hideBit, hl.manLen, hor, hshift, Nat.shiftLeft_eq, Nat.mod_eq_of_lt hfit, hround,
    Nat.shiftRight_eq_div_pow]
  generalize roundUp ((2 ^ F.manBits + m) * 2 ^ j / 2 ^ F.manBits)
    ((2 ^ F.manBits + m) * 2 ^ j % 2 ^ F.manBits) F.manBits = up at *
  generalize (2 ^ F.manBits + m) * 2 ^ j / 2 ^ F.manBits = q at *
  rw [Nat.mod_eq_of_lt (show q < 2 ^ 16 by omega),
    Nat.mod_eq_of_lt (show q + up < 2 ^ 16 by omega), half_infinity,
    normalCode_subnormal (by omega)]
  omega

theorem FloatLayout.For.round_below (hlo : e < l.denormExp)
    (hcode : F.code v = e * 2 ^ F.manBits + m) : CodesNearest (F.magnitude v) (l.round e m) := by
  have hunder := hl.underflowExp
  have hover := hl.overflowExp
  have hdenorm := hl.denormExp
  have hbelow := hl.belowExp
  have hlong := hl.long
  have hbias := hl.low
  have hround : l.round e m = (0, if e = l.belowExp ∧ 0 < m then 1 else 0) := by
    unfold FloatLayout.round
    rw [if_neg (by omega), if_pos (by omega), if_neg (by omega)]
    split <;> rfl
  rw [hround]
  by_cases he : e = l.belowExp
  · -- the significand is half of the smallest half, and what the mantissa adds
    have hpow : (2 ^ F.manBits + m) * 2 ^ 0 < 2 ^ (F.manBits + 1) := by
      rw [Nat.pow_succ]
      omega
    have hdiv : (2 ^ F.manBits + m) * 2 ^ 0 / 2 ^ (F.manBits + 1) = 0 := Nat.div_eq_of_lt hpow
    have hmod := Nat.mod_eq_of_lt hpow
    have hn := hl.nearest_normal (a := bias - 26) (b := 0) (t := F.manBits + 1) (j := 0)
      (by omega) hm hcode (by omega) (by omega) (Or.inr rfl) (by rw [hdiv]; decide)
    rw [hdiv, hmod] at hn
    have hup : roundUp 0 ((2 ^ F.manBits + m) * 2 ^ 0) (F.manBits + 1) =
        if 0 < m then 1 else 0 := by
      unfold roundUp
      rw [Nat.pow_succ]
      split <;> split <;> omega
    rw [hup] at hn
    refine ⟨_, hn, ?_⟩
    rw [normalCode_subnormal (by split <;> omega), half_infinity]
    simp only [he, true_and]
    split <;> omega
  · have hzero : NearestEven (grid 10 half.unit) (F.magnitude v) 0 := by
      by_cases h0 : e = 0
      · rw [h0, Nat.zero_mul, Nat.zero_add] at hcode
        refine hl.nearest_zero (a := 0) (t := F.manBits + bias - 25)
          (F.magnitude_place (e := 0) (m := m) (by omega) (Or.inr rfl) ?_) (by omega) ?_
        · rw [Nat.pow_succ]
          omega
        · calc 2 * m < 2 ^ (F.manBits + 1) := by rw [Nat.pow_succ]; omega
            _ ≤ _ := Nat.pow_le_pow_right (by decide) (by omega)
      · have hplace : F.code v = (e - 1) * 2 ^ F.manBits + (2 ^ F.manBits + m) := by
          obtain ⟨k, rfl⟩ := Nat.exists_eq_add_of_le' (Nat.pos_of_ne_zero h0)
          rw [hcode, Nat.add_sub_cancel]
          ring
        refine hl.nearest_zero (a := e - 1) (t := F.manBits + bias - 25 - (e - 1))
          (F.magnitude_place hplace (Or.inl (Nat.le_add_right _ _)) ?_) (by omega) ?_
        · rw [Nat.pow_succ]
          omega
        · calc 2 * (2 ^ F.manBits + m) < 2 ^ (F.manBits + 2) := by
                rw [Nat.pow_succ, Nat.pow_succ]
                omega
            _ ≤ _ := Nat.pow_le_pow_right (by decide) (by omega)
    refine ⟨0, hzero, ?_⟩
    rw [if_neg (fun hc => he hc.1)]
    rfl

/-- The three ranges of exponents together. -/
theorem FloatLayout.For.round_finite (he : e < l.nanExp)
    (hcode : F.code v = e * 2 ^ F.manBits + m) :
    CodesNearest (F.magnitude v) (l.round e m) := by
  by_cases hover : l.overflowExp ≤ e
  · exact hl.round_overflow hm hover he hcode
  by_cases hunder : l.underflowExp < e
  · exact hl.round_normal hm hunder (Nat.not_le.mp hover) hcode
  by_cases hdenorm : l.denormExp ≤ e
  · exact hl.round_denorm hm hdenorm (Nat.not_lt.mp hunder) hcode
  · exact hl.round_below hm (Nat.not_le.mp hdenorm) hcode

end

end

end Rounding

/-! ## The conversions -/

theorem FloatLayout.For.infinity_le {l : FloatLayout} {F : FloatFormat} {bias : Nat}
    (hl : l.For F bias) (v : Nat) :
    F.infinity ≤ F.code v ↔ l.nanExp ≤ v / 2 ^ F.manBits % 2 ^ F.expBits := by
  rw [code_eq_fields F v, FloatFormat.infinity, ← hl.nanExp,
    ← Nat.le_div_iff_mul_le (Nat.two_pow_pos _), Nat.mul_comm, Nat.mul_add_div (Nat.two_pow_pos _),
    Nat.div_eq_of_lt (Nat.mod_lt v (Nat.two_pow_pos _)), Nat.add_zero]

/-- The conversion of every pattern: finite ones are rounded, the others become what they are. -/
theorem FloatLayout.For.converts {l : FloatLayout} {F : FloatFormat} {bias : Nat}
    (hl : l.For F bias) (v : Nat) : F.Converts half v (l.assign v) := by
  have hover := hl.overflowExp
  have hhigh := hl.high
  have hcode := code_eq_fields F v
  have htop := hl.infinity_le v
  have hm := Nat.mod_lt v (Nat.two_pow_pos F.manBits)
  have he := Nat.mod_lt (v / 2 ^ F.manBits) (Nat.two_pow_pos F.expBits)
  have hassign : l.assign v = normalConstructor (v / 2 ^ (F.expBits + F.manBits) % 2)
      (l.round (v / 2 ^ F.manBits % 2 ^ F.expBits) (v % 2 ^ F.manBits)) := by
    unfold FloatLayout.assign
    rw [hl.sign_eq, hl.exp_eq, hl.man_eq]
  generalize v / 2 ^ F.manBits % 2 ^ F.expBits = e at *
  generalize v % 2 ^ F.manBits = m at *
  have hsign : v / 2 ^ (F.expBits + F.manBits) % 2 < 2 := Nat.mod_lt _ (by decide)
  have hwcode : half.code (l.assign v) = normalCode (l.round e m) := by
    rw [hassign, code_normalConstructor hsign]
  have hwneg : half.negative (l.assign v) = F.negative v := by
    rw [hassign, negative_normalConstructor hsign]
    rfl
  have hinf : F.infinity = l.nanExp * 2 ^ F.manBits := by rw [FloatFormat.infinity, hl.nanExp]
  have hnan := hl.nanExp
  have hexp : F.infinity ≤ F.code v → e = l.nanExp := fun h => by
    have := htop.mp h
    omega
  refine ⟨fun h => ?_, fun h => ?_, fun h => ⟨hwneg, ?_⟩⟩
  · -- a NaN becomes exponent 31 with all of the mantissa set
    have heq := hexp h.le
    rw [hinf, hcode, heq] at h
    have hround : l.round e m = (31, 0x3FF) := by
      unfold FloatLayout.round
      rw [if_pos (by omega), if_pos ⟨by omega, heq⟩]
      rfl
    rw [hwcode, hround]
    decide
  · -- infinity stays infinite
    have heq := hexp h.ge
    rw [hinf, hcode, heq] at h
    have hround : l.round e m = (31, 0) := by
      unfold FloatLayout.round
      rw [if_pos (by omega), if_neg (fun hc => hc.1 (by omega))]
      rfl
    refine ⟨?_, hwneg⟩
    rw [hwcode, hround]
    decide
  · -- finite: the rounding says it
    have hlt : e < l.nanExp := lt_of_not_ge fun hge => h.not_ge (htop.mpr hge)
    rw [hwcode]
    exact hl.round_finite hm hlt hcode

/-- The two conversions round to nearest, ties to even. -/
theorem assign_converts (f : UInt32) (d : UInt64) :
    single.Converts half f.toNat (assignFloat f) ∧ double.Converts half d.toNat (assignDouble d) :=
  ⟨fp32Layout_for.converts f.toNat, fp64Layout_for.converts d.toNat⟩

end OpBase.Fp16
