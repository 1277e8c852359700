import OpBase.Fp16.Arith
import OpBase.Fp16.FromInt

/-!
# To the integer types

`fp16ToInt8` and the other five of `fp16_t.cpp`. A loop moves the point behind the last bit of the
exponent, one bit in a round; what is behind it then is rounded off. The three for signed numbers
and the three for unsigned ones differ in the numbers they take for too large, and in those they
do not round up.

> `fp16ToInteger_rounds`: the result is the value rounded to nearest, ties to even, or the last
> number of the type on that side.
>
> `integers_via_half`: small integers are got back after the conversions of `FromInt`.
-/

namespace OpBase.Fp16

open OpBase.Lib
open FloatFormat (half)

/-- `while (hfE != FP16_EXP_BIAS)`: the mantissa, of less than 64 bits, and how many of them it has
behind the point beside its ten; `none` when `tooLarge` stops the loop. -/
def toUnits (tooLarge : Nat → Bool) (hfE longIntM shiftOut : Nat) : Option (Nat × Nat) :=
  if hfE = FP16_EXP_BIAS then some (longIntM, shiftOut)
  else if FP16_EXP_BIAS < hfE then
    if tooLarge (longIntM <<< 1) then none else toUnits tooLarge (hfE - 1) (longIntM <<< 1) shiftOut
  else toUnits tooLarge (hfE + 1) longIntM (shiftOut + 1)
termination_by (hfE - 15) + (15 - hfE)
decreasing_by all_goals simp only [FP16_EXP_BIAS] at *; omega

variable {width : Nat}

/-- The last lines of the signed conversions. -/
def withSign (sRet : Nat) (mRet : BitVec width) : BitVec width :=
  let mRet := if sRet ≠ 0 then ~~~mRet + 1 else mRet
  let sRet := if mRet = 0 then 0 else sRet
  BitVec.ofNat width (sRet <<< (width - 1)) ||| mRet

/-- The signed conversions, by whether they look for subnormals first, what is too large and what
can be rounded up, given the sign. -/
def fp16ToSigned (width : Nat) (denorm : Bool) (tooLarge rounds : Nat → Nat → Bool) (fpVal : Nat) :
    BitVec width :=
  let sRet := (fpVal >>> 15) &&& 1
  let hfE := (fpVal >>> 10) &&& FP16_MAX_EXP
  let hfM := (extractFP16 fpVal).2.2
  if denorm && hfE = 0 then 0
  else
    match if hfE = FP16_MAX_EXP then none else toUnits (tooLarge sRet) hfE hfM 0 with
    | none => BitVec.ofNat width (2 ^ (width - 1) - 1 + sRet)
    | some (longIntM, shiftOut) =>
      let needRound := isRoundOne longIntM (shiftOut + FP16_MAN_LEN)
      let mRet := BitVec.ofNat width (longIntM >>> (FP16_MAN_LEN + shiftOut))
      withSign sRet (if needRound && rounds sRet mRet.toNat then mRet + 1 else mRet)

def fp16ToInt8 : Nat → BitVec 8 :=
  fp16ToSigned 8 true (fun sRet m => if sRet = 1 then 0x20000 ≤ m else 0x1FFFF ≤ m)
    fun sRet mRet => sRet = 0 && decide (mRet < 0x7F) || sRet = 1 && decide (mRet ≤ 0x7F)

def fp16ToInt16 : Nat → BitVec 16 :=
  fp16ToSigned 16 true (fun sRet m => if sRet = 1 then 0x2000000 < m else 0x1FFFFFF ≤ m)
    fun _ mRet => mRet < 0x7FFF

def fp16ToInt32 : Nat → BitVec 32 :=
  fp16ToSigned 32 false (fun _ _ => false) fun _ mRet => mRet < 0x7FFFFFFF

/-- The unsigned conversions. -/
def fp16ToUnsigned (width : Nat) (tooLarge : Nat → Bool) (fpVal : Nat) : BitVec width :=
  let sRet := (fpVal >>> 15) &&& 1
  let hfE := (fpVal >>> 10) &&& FP16_MAX_EXP
  let hfM := (extractFP16 fpVal).2.2
  if hfE = 0 then 0
  else
    let mRet :=
      match if hfE = FP16_MAX_EXP then none else toUnits tooLarge hfE hfM 0 with
      | none => ~~~(0 : BitVec width)
      | some (longIntM, shiftOut) =>
        let needRound := isRoundOne longIntM (shiftOut + FP16_MAN_LEN)
        let mRet := BitVec.ofNat width (longIntM >>> (FP16_MAN_LEN + shiftOut))
        if needRound && mRet ≠ ~~~0 then mRet + 1 else mRet
    if sRet = 1 then 0 else mRet

def fp16ToUInt8 : Nat → BitVec 8 := fp16ToUnsigned 8 fun m => 0x40000 ≤ m

def fp16ToUInt16 : Nat → BitVec 16 := fp16ToUnsigned 16 fun _ => false

def fp16ToUInt32 : Nat → BitVec 32 := fp16ToUnsigned 32 fun _ => false

/-! ## The loop -/

theorem toUnits_low (tooLarge : Nat → Bool) (M : Nat) :
    ∀ k t, k ≤ 15 → toUnits tooLarge (15 - k) M t = some (M, t + k)
  | 0, t, _ => by rw [toUnits]; rfl
  | k + 1, t, hk => by
    rw [toUnits, if_neg (by rw [FP16_EXP_BIAS]; omega), if_neg (by rw [FP16_EXP_BIAS]; omega),
      show 15 - (k + 1) + 1 = 15 - k by omega, toUnits_low tooLarge M k (t + 1) (by omega)]
    congr 2
    omega

theorem toUnits_high (tooLarge : Nat → Bool) (t : Nat) : ∀ k M,
    toUnits tooLarge (15 + k) M t = some (M * 2 ^ k, t) ∧ (k ≠ 0 → tooLarge (M * 2 ^ k) = false) ∨
      toUnits tooLarge (15 + k) M t = none ∧ ∃ j ≤ k, tooLarge (M * 2 ^ j) = true
  | 0, M => by
    rw [toUnits, if_pos (show 15 + 0 = FP16_EXP_BIAS from rfl)]
    simp
  | k + 1, M => by
    rw [toUnits, if_neg (by rw [FP16_EXP_BIAS]; omega), if_pos (by rw [FP16_EXP_BIAS]; omega),
      show M <<< 1 = M * 2 from Nat.shiftLeft_eq M 1,
      show 15 + (k + 1) - 1 = 15 + k by omega]
    by_cases hlarge : tooLarge (M * 2) = true
    · rw [if_pos hlarge]
      exact Or.inr ⟨rfl, 1, by omega, by rwa [pow_one]⟩
    · rw [if_neg hlarge]
      have hpow : ∀ j, M * 2 * 2 ^ j = M * 2 ^ (j + 1) := fun j => by rw [Nat.pow_succ]; ring
      rcases toUnits_high tooLarge t k (M * 2) with ⟨h, hlast⟩ | ⟨h, j, hj, hov⟩
      · rw [hpow] at h hlast
        refine Or.inl ⟨h, fun _ => ?_⟩
        by_cases hk : k = 0
        · subst hk
          simpa using hlarge
        · exact hlast hk
      · rw [hpow] at hov
        exact Or.inr ⟨h, j + 1, by omega, hov⟩


/-! ## Its result -/

theorem sign_eq (v : Nat) : (v >>> 15) &&& 1 = (half.negative v).toNat := by
  rw [half_negative, Nat.and_one_is_mod, Nat.shiftRight_eq_div_pow]
  rcases Nat.mod_two_eq_zero_or_one (v / 2 ^ 15) with h | h <;> rw [h] <;> rfl

theorem exp_eq (v : Nat) : (v >>> 10) &&& FP16_MAX_EXP = half.code v / 2 ^ 10 := by
  rw [Nat.shiftRight_eq_div_pow, half_code]
  exact (Nat.and_two_pow_sub_one_eq_mod _ 5).trans (by omega)

/-- How the loop ends, `n` being the integer nearest to the number. -/
structure InUnits (tooLarge : Nat → Bool) (n M t : Nat) : Prop where
  shift : t ≤ 15
  lt : M < 2 ^ 26
  fits : tooLarge M = false ∨ M < 2 ^ 11
  nearest : n = M / 2 ^ (t + 10) + (isRoundOne M (t + 10)).toNat
  small : isRoundOne M (t + 10) = true → M / 2 ^ (t + 10) < 2 ^ 11

theorem nearestEven_units (M : Nat) {t : Nat} (ht : t ≤ 15) {x : ℚ} (hx : x = M / 2 ^ (t + 10)) :
    NearestEven Nat.cast x (M / 2 ^ (t + 10) + (isRoundOne M (t + 10)).toNat) := by
  rw [hx, isRoundOne_toNat M (by omega) (by omega)]
  exact nearestEven_int M (t + 10)

variable {tooLarge : Nat → Bool}

theorem inUnits_of_lt {M t : Nat} (ht : t ≤ 15) (hM : M < 2 ^ 11) :
    InUnits tooLarge (M / 2 ^ (t + 10) + (isRoundOne M (t + 10)).toNat) M t :=
  ⟨ht, by omega, Or.inr hM, rfl, fun _ => Nat.lt_of_le_of_lt (Nat.div_le_self ..) hM⟩

/-- The shift to units rounds to the nearest integer, or stops at one that is too large. -/
theorem toUnits_spec {v : Nat} (hv : half.code v < half.infinity) (tooLarge : Nat → Bool) :
    ∃ n, NearestEven Nat.cast (half.magnitude v) n ∧ (half.code v / 2 ^ 10 = 0 → n = 0) ∧
      ((∃ M t, toUnits tooLarge (half.code v / 2 ^ 10) (extractFP16 v).2.2 0 = some (M, t) ∧
          InUnits tooLarge n M t) ∨
        toUnits tooLarge (half.code v / 2 ^ 10) (extractFP16 v).2.2 0 = none ∧
          ∃ M, tooLarge M = true ∧ M / 2 ^ 10 ≤ n) := by
  have hf := extractFP16_fields hv
  have hexp : (extractFP16 v).2.1 =
      if half.code v / 2 ^ 10 = 0 then 1 else half.code v / 2 ^ 10 := by
    rw [← exp_eq]
    rfl
  have hmag := hf.magnitude
  have hm := hf.man_lt
  have hle := hf.exp_le
  have hunit : ∀ k, (2 : ℚ) ^ k * half.unit = 2 ^ k / 2 ^ 24 := fun k => by
    rw [eq_div_iff (by positivity), mul_assoc, mul_comm half.unit, two_pow_mul_unit, mul_one]
  generalize (extractFP16 v).2.2 = m at *
  generalize (extractFP16 v).2.1 = e' at *
  generalize half.code v / 2 ^ 10 = e at *
  subst hexp
  rcases Nat.eq_zero_or_pos e with rfl | hpos
  · -- a subnormal is less than a half
    have hzero : NearestEven Nat.cast (half.magnitude v) 0 := by
      have h := nearestEven_units m (t := 14) (by decide) (x := half.magnitude v) (by
        rw [hmag, mul_assoc, hunit]
        norm_num
        ring)
      have h0 : m / 2 ^ 24 = 0 := Nat.div_eq_of_lt (by omega)
      rw [isRoundOne_toNat m (by decide) (by decide), h0, roundUp, if_neg (by omega)] at h
      exact h
    have hlow := toUnits_low tooLarge m 15 0 le_rfl
    have hend : InUnits tooLarge (m / 2 ^ 25 + (isRoundOne m 25).toNat) m 15 :=
      inUnits_of_lt le_rfl hm
    have h0 : m / 2 ^ 25 = 0 := Nat.div_eq_of_lt (by omega)
    rw [isRoundOne_toNat m (by decide) (by decide), h0, roundUp, if_neg (by omega)] at hend
    exact ⟨0, hzero, fun _ => rfl, Or.inl ⟨m, 15, hlow, hend⟩⟩
  rw [if_neg hpos.ne'] at hmag hle
  rw [mul_assoc, hunit] at hmag
  by_cases hlow : e ≤ 15
  · have hend := toUnits_low tooLarge m (15 - e) 0 (by omega)
    rw [show 15 - (15 - e) = e by omega, Nat.zero_add] at hend
    refine ⟨_, nearestEven_units m (t := 15 - e) (by omega) ?_, fun h => absurd h hpos.ne',
      Or.inl ⟨m, 15 - e, hend, inUnits_of_lt (by omega) hm⟩⟩
    rw [hmag, show (2 : ℚ) ^ 24 = 2 ^ (e - 1) * 2 ^ (15 - e + 10) by rw [← pow_add]; congr 1; omega]
    field_simp
  · obtain ⟨k, rfl⟩ := Nat.exists_eq_add_of_le (Nat.le_of_not_le hlow)
    have hmag' : half.magnitude v = (m * 2 ^ k : Nat) / 2 ^ (0 + 10) := by
      rw [hmag, show 15 + k - 1 = 14 + k by omega, pow_add]
      push_cast
      ring
    refine ⟨_, nearestEven_units (m * 2 ^ k) (by decide) hmag', fun h => absurd h hpos.ne', ?_⟩
    rcases toUnits_high tooLarge 0 k m with ⟨h, hlast⟩ | ⟨h, j, hj, hover⟩
    · refine Or.inl ⟨_, 0, h, by decide, ?_, Or.inl (hlast (by omega)), rfl, fun hup => ?_⟩
      · have := Nat.mul_lt_mul_of_lt_of_le hm (Nat.pow_le_pow_right two_pos (show k ≤ 15 by omega))
          (by decide)
        exact this
      · -- what is cut off are bits of a mantissa of eleven bits
        by_contra hge
        have hk : 10 ≤ k := by
          by_contra hlt
          have := Nat.mul_lt_mul_of_lt_of_le hm (Nat.pow_le_pow_right two_pos
            (show k ≤ 10 by omega)) (by decide)
          exact hge (Nat.div_lt_of_lt_mul this)
        have hcut : m * 2 ^ k % 2 ^ 10 = 0 :=
          Nat.mod_eq_zero_of_dvd (Dvd.dvd.mul_left (Nat.pow_dvd_pow 2 hk) m)
        have hround := isRoundOne_toNat (m * 2 ^ k) (t := 10) (by decide) (by decide)
        rw [hup, hcut, roundUp, if_neg (by omega)] at hround
        cases hround
    · exact Or.inr ⟨h, _, hover, (Nat.div_le_div_right (Nat.mul_le_mul_left m
        (Nat.pow_le_pow_right two_pos hj))).trans (Nat.le_add_right ..)⟩

/-! ## Signed numbers -/

def signed (s : Bool) (a : Nat) : Int := if s then -a else a

/-- The largest magnitude with the sign. -/
def bound (width : Nat) (s : Bool) : Nat := 2 ^ (width - 1) - 1 + s.toNat

theorem two_pow_width (hw : 0 < width) : 2 ^ width = 2 * 2 ^ (width - 1) := by
  rw [← Nat.pow_succ', Nat.succ_eq_add_one, Nat.sub_add_cancel hw]

theorem toInt_ofNat_bound (hw : 0 < width) (s : Bool) :
    (BitVec.ofNat width (bound width s)).toInt = signed s (bound width s) := by
  have htwo := two_pow_width hw
  have hpos := Nat.two_pow_pos (width - 1)
  rw [BitVec.toInt_eq_toNat_cond, BitVec.toNat_ofNat, htwo]
  unfold signed bound
  generalize 2 ^ (width - 1) = half at *
  cases s <;> simp only [Bool.toNat_false, Bool.toNat_true, if_true, if_false, Bool.false_eq_true]
  · rw [Nat.mod_eq_of_lt (by omega), if_pos (by omega)]
  · rw [Nat.mod_eq_of_lt (by omega), if_neg (by omega)]
    push_cast
    omega

/-- Sign and magnitude make the integer, within its bounds. -/
theorem toInt_withSign {a : Nat} (hw : 0 < width) {s : Bool} (ha : a ≤ bound width s) :
    (withSign s.toNat (BitVec.ofNat width a)).toInt = signed s a := by
  have htwo := two_pow_width hw
  have hpos := Nat.two_pow_pos (width - 1)
  have hor : ∀ r < 2 ^ (width - 1), 2 ^ (width - 1) ||| (2 ^ (width - 1) + r) =
      2 ^ (width - 1) + r := by
    intro r hr
    have := Nat.two_pow_add_eq_or_of_lt hr 1
    rw [Nat.mul_one] at this
    rw [this, ← Nat.or_assoc, Nat.or_self]
  unfold bound at ha
  unfold withSign signed
  cases s with
  | false =>
    simp only [Bool.toNat_false, Nat.add_zero, ne_eq, not_true_eq_false, if_false, ite_self,
      Nat.zero_shiftLeft, BitVec.zero_or, Bool.false_eq_true] at ha ⊢
    rw [BitVec.toInt_eq_toNat_cond, BitVec.toNat_ofNat, Nat.mod_eq_of_lt (by omega),
      if_pos (by omega)]
  | true =>
    rw [Bool.toNat_true, Nat.sub_add_cancel hpos] at ha
    rw [Bool.toNat_true, if_pos one_ne_zero, if_pos rfl,
      show ~~~(BitVec.ofNat width a) + 1 = -_ from (BitVec.neg_eq_not_add _).symm]
    rcases Nat.eq_zero_or_pos a with rfl | hapos
    · simp
    · have hneg : (-BitVec.ofNat width a).toNat = 2 ^ (width - 1) + (2 ^ (width - 1) - a) := by
        rw [BitVec.toNat_neg, BitVec.toNat_ofNat, htwo]
        generalize 2 ^ (width - 1) = half at ha hpos ⊢
        rw [Nat.mod_eq_of_lt (show a < 2 * half by omega), Nat.mod_eq_of_lt (by omega)]
        omega
      have hne : -BitVec.ofNat width a ≠ 0 := fun h => by
        have := hneg.symm.trans (congrArg BitVec.toNat h)
        exact absurd this (Nat.add_pos_left hpos _).ne'
      dsimp only
      rw [if_neg hne, BitVec.toInt_eq_toNat_cond, BitVec.toNat_or, hneg, BitVec.toNat_ofNat,
        Nat.one_shiftLeft, htwo, Nat.mod_eq_of_lt (by omega), hor _ (by omega)]
      generalize 2 ^ (width - 1) = half at ha hpos ⊢
      rw [if_neg (by omega)]
      omega

/-! ## The conversions -/

/-- What a signed conversion makes of a pattern: the integer nearest to its value, or the last one
on that side; of an infinity or a NaN the last one. -/
structure ToSigned (v : Nat) {width : Nat} (i : BitVec width) : Prop where
  finite : half.code v < half.infinity → ∃ n, NearestEven Nat.cast (half.magnitude v) n ∧
    i.toInt = signed (half.negative v) (min n (bound width (half.negative v)))
  invalid : half.infinity ≤ half.code v →
    i.toInt = signed (half.negative v) (bound width (half.negative v))

/-- The same for an unsigned one, which makes zero of all with a sign. -/
structure ToUnsigned (v : Nat) {width : Nat} (i : BitVec width) : Prop where
  finite : half.code v < half.infinity → ∃ n, NearestEven Nat.cast (half.magnitude v) n ∧
    i.toNat = if half.negative v then 0 else min n (2 ^ width - 1)
  invalid : half.infinity ≤ half.code v →
    i.toNat = if half.negative v then 0 else 2 ^ width - 1

theorem code_div_eq {v : Nat} :
    half.code v / 2 ^ 10 = FP16_MAX_EXP ↔ half.infinity ≤ half.code v := by
  rw [half_infinity, half_code, FP16_MAX_EXP]
  omega

theorem InUnits.le {n M t b : Nat} (h : InUnits tooLarge n M t) (hb : 1 ≤ b)
    (hfits : M < 2 ^ 26 → tooLarge M = false → M / 2 ^ 10 ≤ b) : M / 2 ^ (t + 10) ≤ b := by
  have hle : M / 2 ^ (t + 10) ≤ M / 2 ^ 10 :=
    Nat.div_le_div_left (Nat.pow_le_pow_right two_pos (by omega)) (by decide)
  rcases h.fits with hf | hf
  · exact hle.trans (hfits h.lt hf)
  · omega

theorem rounded_eq {q b : Nat} (hq : q ≤ b) {needRound room : Bool}
    (hroom : needRound = true → (room = true ↔ q < b)) :
    (if (needRound && room) = true then BitVec.ofNat width q + 1 else BitVec.ofNat width q) =
      BitVec.ofNat width (min (q + needRound.toNat) b) := by
  cases needRound with
  | false =>
    rw [Bool.false_and, if_neg Bool.false_ne_true, Bool.toNat_false, Nat.add_zero,
      Nat.min_eq_left hq]
  | true =>
    rw [Bool.true_and, Bool.toNat_true]
    by_cases hlt : q < b
    · rw [if_pos ((hroom rfl).mpr hlt), Nat.min_eq_left hlt]
      exact (BitVec.ofNat_add q 1).symm
    · rw [if_neg (mt (hroom rfl).mp hlt), Nat.min_eq_right (by omega), hq.antisymm (by omega)]

/-- A conversion to a signed type rounds, and stops at the bounds. -/
theorem fp16ToSigned_toSigned (hw : 2 ≤ width) {denorm : Bool} {tooLarge rounds : Nat → Nat → Bool}
    (hlarge : ∀ s : Bool, ∀ M, tooLarge s.toNat M = true → bound width s ≤ M / 2 ^ 10)
    (hfits : ∀ s : Bool, ∀ M < 2 ^ 26, tooLarge s.toNat M = false → M / 2 ^ 10 ≤ bound width s)
    (hrounds : ∀ s : Bool, ∀ q < 2 ^ 11, q ≤ bound width s →
      (rounds s.toNat q = true ↔ q < bound width s)) (v : Nat) :
    ToSigned v (fp16ToSigned width denorm tooLarge rounds v) := by
  have hpos : 2 ≤ 2 ^ (width - 1) := Nat.le_self_pow (by omega) 2
  unfold fp16ToSigned
  simp only [sign_eq, exp_eq]
  generalize hs : half.negative v = s
  have hword : bound width s < 2 ^ width := by
    have htwo := two_pow_width (show 0 < width by omega)
    have := Bool.toNat_le s
    unfold bound
    omega
  constructor
  · rw [hs]
    intro hv
    obtain ⟨n, hn, hzero, hend⟩ := toUnits_spec hv (tooLarge s.toNat)
    refine ⟨n, hn, ?_⟩
    -- where the code takes subnormals for zero
    by_cases hdenorm : (denorm && decide (half.code v / 2 ^ 10 = 0)) = true
    · rw [if_pos hdenorm, hzero (by simpa using (Bool.and_eq_true_iff.mp hdenorm).2), Nat.zero_min]
      exact BitVec.toInt_zero.trans (by cases s <;> rfl)
    rw [if_neg hdenorm, if_neg fun h => absurd (code_div_eq.mp h) (Nat.not_le.mpr hv)]
    -- the shift comes to an end, or stops at a value that is too large
    rcases hend with ⟨M, t, hrun, hM⟩ | ⟨hrun, M, hlargeM, hle⟩
    · have hq := hM.le (show 1 ≤ bound width s by unfold bound; omega) (hfits s M)
      rw [hrun, hM.nearest]
      dsimp only
      rw [FP16_MAN_LEN, Nat.add_comm 10 t, Nat.shiftRight_eq_div_pow, BitVec.toNat_ofNat,
        Nat.mod_eq_of_lt (hq.trans_lt hword),
        rounded_eq hq fun hup => hrounds s _ (hM.small hup) hq]
      exact toInt_withSign (by omega) (Nat.min_le_right ..)
    · rw [hrun, Nat.min_eq_right ((hlarge _ M hlargeM).trans hle)]
      exact toInt_ofNat_bound (by omega) _
  · rw [hs]
    intro hv
    have hexp := code_div_eq.mpr hv
    rw [if_pos hexp, if_neg (by rw [hexp]; simp [FP16_MAX_EXP])]
    exact toInt_ofNat_bound (by omega) _

/-- A conversion to an unsigned type rounds, and stops at the bounds. -/
theorem fp16ToUnsigned_toUnsigned (hw : 1 ≤ width)
    (hlarge : ∀ M, tooLarge M = true → 2 ^ width - 1 ≤ M / 2 ^ 10)
    (hfits : ∀ M < 2 ^ 26, tooLarge M = false → M / 2 ^ 10 ≤ 2 ^ width - 1) (v : Nat) :
    ToUnsigned v (fp16ToUnsigned width tooLarge v) := by
  have hpos : 2 ≤ 2 ^ width := Nat.le_self_pow (by omega) 2
  have hones : (~~~(0 : BitVec width)).toNat = 2 ^ width - 1 :=
    BitVec.toNat_not.trans (Nat.sub_zero _)
  unfold fp16ToUnsigned
  simp only [sign_eq, exp_eq]
  constructor
  · intro hv
    obtain ⟨n, hn, hzero, hend⟩ := toUnits_spec hv tooLarge
    refine ⟨n, hn, ?_⟩
    by_cases hdenorm : half.code v / 2 ^ 10 = 0
    · rw [if_pos hdenorm, hzero hdenorm, Nat.zero_min, ite_self]
      rfl
    rw [if_neg hdenorm, if_neg fun h => absurd (code_div_eq.mp h) (Nat.not_le.mpr hv)]
    cases half.negative v with
    | true => rfl
    | false =>
      rw [if_neg Bool.false_ne_true, if_neg (show ¬ Bool.toNat false = 1 by decide)]
      rcases hend with ⟨M, t, hrun, hM⟩ | ⟨hrun, M, hlargeM, hle⟩
      · have hq := hM.le (show 1 ≤ 2 ^ width - 1 by omega) (hfits M)
        rw [hrun, hM.nearest]
        dsimp only
        rw [FP16_MAN_LEN, Nat.add_comm 10 t, Nat.shiftRight_eq_div_pow,
          rounded_eq hq fun _ => ?_, BitVec.toNat_ofNat, Nat.mod_eq_of_lt (by omega)]
        rw [decide_eq_true_iff, ne_eq, ← BitVec.toNat_inj, hones, BitVec.toNat_ofNat,
          Nat.mod_eq_of_lt (by omega)]
        omega
      · rw [hrun, Nat.min_eq_right ((hlarge M hlargeM).trans hle)]
        exact hones
  · intro hv
    have hexp := code_div_eq.mpr hv
    rw [if_pos hexp, if_neg (by rw [hexp]; decide)]
    cases half.negative v with
    | true => rfl
    | false => exact hones

theorem fp16ToInt8_toSigned (v : Nat) : ToSigned v (fp16ToInt8 v) := by
  refine fp16ToSigned_toSigned (by decide) ?_ ?_ ?_ v <;> intro s <;> cases s <;>
    simp [bound] <;> omega

theorem fp16ToInt16_toSigned (v : Nat) : ToSigned v (fp16ToInt16 v) := by
  refine fp16ToSigned_toSigned (by decide) ?_ ?_ ?_ v <;> intro s <;> cases s <;>
    simp [bound] <;> omega

theorem fp16ToInt32_toSigned (v : Nat) : ToSigned v (fp16ToInt32 v) := by
  refine fp16ToSigned_toSigned (by decide) ?_ ?_ ?_ v <;> intro s <;> cases s <;>
    simp [bound] <;> omega

theorem fp16ToUInt8_toUnsigned (v : Nat) : ToUnsigned v (fp16ToUInt8 v) := by
  refine fp16ToUnsigned_toUnsigned (by decide) ?_ ?_ v <;> simp <;> omega

theorem fp16ToUInt16_toUnsigned (v : Nat) : ToUnsigned v (fp16ToUInt16 v) :=
  fp16ToUnsigned_toUnsigned (by decide) (by simp) (by simp; omega) v

theorem fp16ToUInt32_toUnsigned (v : Nat) : ToUnsigned v (fp16ToUInt32 v) :=
  fp16ToUnsigned_toUnsigned (by decide) (by simp) (by simp; omega) v

/-- **Conversions to integers round to nearest**, ties to even, and stop at the last number. -/
theorem fp16ToInteger_rounds (v : Nat) :
    ToSigned v (fp16ToInt8 v) ∧ ToSigned v (fp16ToInt16 v) ∧ ToSigned v (fp16ToInt32 v) ∧
      ToUnsigned v (fp16ToUInt8 v) ∧ ToUnsigned v (fp16ToUInt16 v) ∧
      ToUnsigned v (fp16ToUInt32 v) :=
  ⟨fp16ToInt8_toSigned v, fp16ToInt16_toSigned v, fp16ToInt32_toSigned v, fp16ToUInt8_toUnsigned v,
    fp16ToUInt16_toUnsigned v, fp16ToUInt32_toUnsigned v⟩

/-! ## From integers and back -/

/-- Integers up to `2 ^ 11` are on the grid. -/
theorem exists_code_natCast {n : Nat} (hn : n ≤ 2 ^ 11) :
    ∃ c < half.infinity, grid 10 half.unit c = n := by
  have hplace : ∀ {m e : Nat}, 2 ^ 10 ≤ m ∨ e = 0 → m ≤ 2 ^ 11 → m * 2 ^ e = n * 2 ^ 24 →
      grid 10 half.unit (e * 2 ^ 10 + m) = n := fun {m e} hm hm' hmul => by
    rw [grid, mag_place hm hm', hmul, Nat.cast_mul, Nat.cast_pow, Nat.cast_ofNat, mul_assoc,
      two_pow_mul_unit, mul_one]
  rw [half_infinity]
  rcases Nat.eq_zero_or_pos n with rfl | hpos
  · exact ⟨0, by decide, hplace (m := 0) (e := 0) (Or.inr rfl) (by decide) (by decide)⟩
  rcases hn.eq_or_lt with rfl | hlt
  · exact ⟨24 * 2 ^ 10 + 2 ^ 11, by decide, hplace (Or.inl (by decide)) le_rfl (by decide)⟩
  have hlog : n.log2 ≤ 10 := by
    by_contra h
    have := (Nat.pow_le_pow_right two_pos (show 11 ≤ n.log2 by omega)).trans
      (Nat.log2_self_le hpos.ne')
    omega
  have hlo : 2 ^ 10 ≤ n * 2 ^ (10 - n.log2) := by
    calc 2 ^ 10 = 2 ^ n.log2 * 2 ^ (10 - n.log2) := by
          rw [← Nat.pow_add, Nat.add_sub_cancel' hlog]
      _ ≤ _ := Nat.mul_le_mul_right _ (Nat.log2_self_le hpos.ne')
  have hhi : n * 2 ^ (10 - n.log2) ≤ 2 ^ 11 := by
    calc _ ≤ 2 ^ (n.log2 + 1) * 2 ^ (10 - n.log2) := Nat.mul_le_mul_right _ Nat.lt_log2_self.le
      _ = 2 ^ 11 := by rw [← Nat.pow_add]; congr 1; omega
  refine ⟨(14 + n.log2) * 2 ^ 10 + n * 2 ^ (10 - n.log2), by omega, hplace (Or.inl hlo) hhi ?_⟩
  rw [mul_assoc, ← Nat.pow_add]
  congr 2
  omega

theorem Rounded.exact {v : Int} {w : Nat} (h : Rounded v w) (hv : v.natAbs ≤ 2 ^ 11) :
    half.code w < half.infinity ∧ half.magnitude w = v.natAbs ∧
      half.negative w = decide (v < 0) := by
  obtain ⟨c, hc, hgrid⟩ := exists_code_natCast hv
  obtain ⟨hneg, n, hn, hcode⟩ := h
  have hmono := grid_strictMono 10 half.unit_pos
  have hself : NearestEven (grid 10 half.unit) v.natAbs c := hgrid ▸ nearestEven_self hmono c
  obtain rfl : c = n := hself.unique hmono hn
  rw [Nat.min_eq_left hc.le] at hcode
  exact ⟨hcode ▸ hc, (congrArg (grid 10 half.unit) hcode).trans hgrid, hneg⟩

theorem natAbs_le_bound {w : Nat} (x : BitVec w) :
    x.toInt.natAbs ≤ bound w (decide (x.toInt < 0)) := by
  have hlo := BitVec.le_toInt x
  have hhi := BitVec.toInt_lt (x := x)
  have hpos := Nat.two_pow_pos (w - 1)
  have hcast : ((2 ^ (w - 1) : Nat) : Int) = 2 ^ (w - 1) := by push_cast; rfl
  unfold bound
  by_cases hlt : x.toInt < 0
  · rw [decide_eq_true hlt, Bool.toNat_true]
    omega
  · rw [decide_eq_false hlt, Bool.toNat_false]
    omega

theorem ToSigned.via_half {w : Nat} {i x : BitVec width} (hi : ToSigned w i) (h : Rounded x.toInt w)
    (hv : x.toInt.natAbs ≤ 2 ^ 11) : i = x := by
  have hfits := natAbs_le_bound x
  refine BitVec.eq_of_toInt_eq ?_
  generalize x.toInt = v at *
  obtain ⟨hfin, hmag, hneg⟩ := h.exact hv
  obtain ⟨n, hn, hvalue⟩ := hi.finite hfin
  rw [hmag] at hn
  obtain rfl := hn.unique Nat.strictMono_cast (nearestEven_self Nat.strictMono_cast v.natAbs)
  rw [hvalue, hneg, Nat.min_eq_left hfits]
  unfold signed
  by_cases hlt : v < 0
  · rw [decide_eq_true hlt, if_pos rfl]
    omega
  · rw [decide_eq_false hlt, if_neg Bool.false_ne_true]
    omega

theorem ToUnsigned.via_half {w : Nat} {i x : BitVec width} (hi : ToUnsigned w i)
    (h : Rounded x.toNat w) (hv : x.toNat ≤ 2 ^ 11) : i = x := by
  have hfits := x.isLt
  refine BitVec.eq_of_toNat_eq ?_
  generalize x.toNat = v at *
  obtain ⟨hfin, hmag, hneg⟩ := h.exact hv
  obtain ⟨n, hn, hvalue⟩ := hi.finite hfin
  rw [hmag] at hn
  obtain rfl := hn.unique Nat.strictMono_cast (nearestEven_self Nat.strictMono_cast v)
  rw [hvalue, hneg, if_neg (by simp)]
  exact Nat.min_eq_left (by omega)

/-- **Small integers survive**: all of 8 bits but the least one, and the others up to 2048. -/
theorem integers_via_half (val : Nat) :
    (∀ v : Int8, (∃ w, assignInt8 v = some w ∧ fp16ToInt8 w = v.toBitVec) ↔ v.toInt ≠ -2 ^ 7) ∧
    (∀ v : UInt8, ∃ w, assignUInt8 v = some w ∧ fp16ToUInt8 w = v.toBitVec) ∧
    (∀ v : Int16, v.toInt.natAbs ≤ 2 ^ 11 → fp16ToInt16 (assignInt16 val v) = v.toBitVec) ∧
    (∀ v : UInt16, v.toNat ≤ 2 ^ 11 → fp16ToUInt16 (assignUInt16 v) = v.toBitVec) ∧
    (∀ v : Int32, v.toInt.natAbs ≤ 2 ^ 11 → fp16ToInt32 (assignInt32 v) = v.toBitVec) ∧
    ∀ v : UInt32, v.toNat ≤ 2 ^ 11 → fp16ToUInt32 (assignUInt32 v) = v.toBitVec := by
  refine ⟨fun v => ⟨?_, fun hv => ?_⟩, fun v => ?_, fun v hv => ?_, fun v hv => ?_, fun v hv => ?_,
    fun v hv => ?_⟩
  · rintro ⟨w, hw, hi⟩ hv
    obtain rfl : v = -128 := Int8.toInt_inj.mp hv
    obtain rfl : 0x8000 = w := Option.some.inj hw
    exact absurd hi (by decide)
  · obtain ⟨w, hw, hround⟩ := (assignInt8_rounded v).mpr hv
    have hlo := v.le_toInt
    have hhi := v.toInt_lt
    exact ⟨w, hw, (fp16ToInt8_toSigned w).via_half hround (show v.toInt.natAbs ≤ 2 ^ 11 by omega)⟩
  · obtain ⟨w, hw, hround⟩ := assignUInt8_rounded v
    exact ⟨w, hw, (fp16ToUInt8_toUnsigned w).via_half hround (v.toBitVec.isLt.le.trans (by decide))⟩
  · exact (fp16ToInt16_toSigned _).via_half (assignInt16_rounded val v) hv
  · exact (fp16ToUInt16_toUnsigned _).via_half (assignUInt16_rounded v) hv
  · refine (fp16ToInt32_toSigned _).via_half ((assignInt32_rounded v).mpr ?_) hv
    omega
  · exact (fp16ToUInt32_toUnsigned _).via_half (assignUInt32_rounded v) hv

theorem integers_via_half_2047 : fp16ToInt16 (assignInt16 0 (-2047)) = (-2047 : Int16).toBitVec :=
  (integers_via_half 0).2.2.1 (-2047) (by decide)

end OpBase.Fp16
