import OpBase.Lib.FloatGrid

/-!
# Rounding to `bfloat16`

`round_to_bfloat16` of `include/nnopbase/opdev/bfloat16.h`. A `bfloat16` has the sign and
the exponent of a float and the upper seven bits of its mantissa, so its pattern is the
upper half of the float's. The function adds a bias to the whole pattern and takes the upper
half of the sum: `0x7FFF`, and one more where the last bit that is kept is set. The carry
out of the lower half is then the step up to the next number, into the next exponent and to
infinity as well.

> `roundToBfloat16_converts`: the result is the value rounded to nearest, ties to even.
-/

namespace OpBase.Bfloat16

open OpBase.Lib
open FloatFormat (single unit)

/-- The format: eight exponent bits as a float, seven of the mantissa. -/
def bfloat16 : FloatFormat := ⟨7, 8⟩

def NAN_VALUE : UInt16 := 0x7FC0

/-- `std::isnan` of the float with these bits. -/
def floatIsnan (input : UInt32) : Bool := 0x7F800000 < input &&& 0x7FFFFFFF

/-- `input` has the bits of the float. -/
def roundToBfloat16 (input : UInt32) : UInt16 :=
  if floatIsnan input then NAN_VALUE
  else
    let lsb := (input >>> 16) &&& 1
    let roundingBias := 0x7FFF + lsb
    ((input + roundingBias) >>> 16).toUInt16

/-! ## The bits -/

theorem floatIsnan_iff (input : UInt32) :
    floatIsnan input = true ↔ single.infinity < single.code input.toNat := by
  have hmask : (input &&& 0x7FFFFFFF).toNat = input.toNat % 2 ^ 31 := by
    rw [UInt32.toNat_and]
    exact Nat.and_two_pow_sub_one_eq_mod input.toNat 31
  have hinf : single.infinity = 0x7F800000 := by decide
  unfold floatIsnan
  rw [decide_eq_true_iff, UInt32.lt_iff_toNat_lt, hmask, hinf]
  rfl

theorem carry_eq_roundUp (c : ℕ) :
    (c + (0x7FFF + c / 2 ^ 16 % 2)) / 2 ^ 16 =
      c / 2 ^ 16 + roundUp (c / 2 ^ 16) (c % 2 ^ 16) 16 := by
  unfold roundUp
  split
  · omega
  · omega

/-- The sum that rounds, taken apart: sign, high half, and a one if the low half rounds up. -/
theorem toNat_roundToBfloat16 {input : UInt32} (h : ¬ floatIsnan input = true) :
    (roundToBfloat16 input).toNat = input.toNat / 2 ^ 31 * 2 ^ 15 +
      (input.toNat % 2 ^ 31 / 2 ^ 16 +
        roundUp (input.toNat % 2 ^ 31 / 2 ^ 16) (input.toNat % 2 ^ 31 % 2 ^ 16) 16) := by
  have hcode : input.toNat % 2 ^ 31 ≤ 0x7F800000 := by
    have hinf : single.infinity = 0x7F800000 := by decide
    rw [floatIsnan_iff, hinf] at h
    exact Nat.le_of_not_lt h
  have hlsb : ((input >>> 16) &&& 1).toNat = input.toNat / 2 ^ 16 % 2 := by
    rw [UInt32.toNat_and, UInt32.toNat_shiftRight]
    show input.toNat >>> 16 &&& 1 = _
    rw [Nat.shiftRight_eq_div_pow, Nat.and_one_is_mod]
  have hlt := input.toNat_lt
  have hsum : (input + ((0x7FFF : UInt32) + ((input >>> 16) &&& 1))).toNat =
      input.toNat + (0x7FFF + input.toNat / 2 ^ 16 % 2) := by
    rw [UInt32.toNat_add, UInt32.toNat_add, hlsb]
    show (input.toNat + (0x7FFF + input.toNat / 2 ^ 16 % 2) % 2 ^ 32) % 2 ^ 32 = _
    omega
  have hshift : (input.toNat + (0x7FFF + input.toNat / 2 ^ 16 % 2)) / 2 ^ 16 =
      input.toNat / 2 ^ 31 * 2 ^ 15 +
        (input.toNat % 2 ^ 31 + (0x7FFF + input.toNat % 2 ^ 31 / 2 ^ 16 % 2)) / 2 ^ 16 := by
    omega
  unfold roundToBfloat16
  rw [if_neg h, UInt32.toNat_toUInt16, UInt32.toNat_shiftRight, hsum, ← carry_eq_roundUp, ← hshift]
  show (input.toNat + (0x7FFF + input.toNat / 2 ^ 16 % 2)) >>> 16 % 2 ^ 16 = _
  rw [Nat.shiftRight_eq_div_pow]
  exact Nat.mod_eq_of_lt (by omega)

/-! ## The value -/

theorem single_unit_mul : single.unit * 2 ^ 16 = bfloat16.unit := by
  unfold unit single bfloat16
  norm_num

theorem nearestEven_upperHalf {c : ℕ} {x : ℚ} (hx : x = grid single.manBits single.unit c) :
    NearestEven (grid bfloat16.manBits bfloat16.unit) x
      (c / 2 ^ 16 + roundUp (c / 2 ^ 16) (c % 2 ^ 16) 16) := by
  obtain ⟨e, m, hc, hplace, hm⟩ := exists_place 23 c
  have hvalue : x = m * 2 ^ e * single.unit := by
    rw [hx, grid, hc]
    show (mag 23 (e * 2 ^ 23 + m) : ℚ) * _ = _
    rw [mag_place hplace hm.le]
    push_cast
    rfl
  have hcut := nearestEven_cut (p := 7) (by decide) bfloat16.unit_pos hvalue single_unit_mul rfl
    (hplace.imp_left fun h => by omega) (by omega)
  have hupper : c / 2 ^ 16 = e * 2 ^ 7 + m / 2 ^ 16 := by omega
  have hlower : c % 2 ^ 16 = m % 2 ^ 16 := by omega
  have hround : roundUp (c / 2 ^ 16) (c % 2 ^ 16) 16 = roundUp (m / 2 ^ 16) (m % 2 ^ 16) 16 := by
    have hparity : c / 2 ^ 16 % 2 = m / 2 ^ 16 % 2 := by omega
    unfold roundUp
    rw [hparity, hlower]
  rw [hround, hupper]
  exact hcut

/-- **Rounding is to nearest, ties to even**, for all `2 ^ 32` patterns: what overflows
becomes the infinity of its sign, infinities stay, and NaNs become a NaN. -/
theorem roundToBfloat16_converts (v : UInt32) :
    single.Converts bfloat16 v.toNat (roundToBfloat16 v).toNat := by
  have hinf : single.infinity = 0x7F800000 := by decide
  have hinf' : bfloat16.infinity = 0x7F80 := by decide
  have hlt := v.toNat_lt
  -- the pattern with its sign taken off, and the sign
  have hcode (h : ¬ floatIsnan v = true) : bfloat16.code (roundToBfloat16 v).toNat =
      v.toNat % 2 ^ 31 / 2 ^ 16 +
        roundUp (v.toNat % 2 ^ 31 / 2 ^ 16) (v.toNat % 2 ^ 31 % 2 ^ 16) 16 := by
    have hle := roundUp_le_one (v.toNat % 2 ^ 31 / 2 ^ 16) (v.toNat % 2 ^ 31 % 2 ^ 16) 16
    have hnan : v.toNat % 2 ^ 31 ≤ 0x7F800000 :=
      Nat.le_of_not_lt (hinf ▸ mt (floatIsnan_iff v).mpr h)
    show (roundToBfloat16 v).toNat % 2 ^ 15 = _
    rw [toNat_roundToBfloat16 h]
    omega
  have hneg (h : ¬ floatIsnan v = true) :
      bfloat16.negative (roundToBfloat16 v).toNat = single.negative v.toNat := by
    have hle := roundUp_le_one (v.toNat % 2 ^ 31 / 2 ^ 16) (v.toNat % 2 ^ 31 % 2 ^ 16) 16
    have hnan : v.toNat % 2 ^ 31 ≤ 0x7F800000 :=
      Nat.le_of_not_lt (hinf ▸ mt (floatIsnan_iff v).mpr h)
    show decide ((roundToBfloat16 v).toNat / 2 ^ 15 % 2 = 1) = decide (v.toNat / 2 ^ 31 % 2 = 1)
    rw [decide_eq_decide, toNat_roundToBfloat16 h]
    omega
  refine ⟨fun h => ?_, fun h => ?_, fun h => ?_⟩
  · rw [roundToBfloat16, if_pos ((floatIsnan_iff v).mpr h)]
    decide
  · have hn : ¬ floatIsnan v = true := fun hc => absurd ((floatIsnan_iff v).mp hc) (by omega)
    refine ⟨?_, hneg hn⟩
    have hv : v.toNat % 2 ^ 31 = 0x7F800000 := h.trans hinf
    rw [hcode hn, hv]
    decide
  · have hn : ¬ floatIsnan v = true := fun hc => absurd ((floatIsnan_iff v).mp hc) (by omega)
    refine ⟨hneg hn, _, nearestEven_upperHalf rfl, ?_⟩
    have hle := roundUp_le_one (v.toNat % 2 ^ 31 / 2 ^ 16) (v.toNat % 2 ^ 31 % 2 ^ 16) 16
    have hfin : v.toNat % 2 ^ 31 < 0x7F800000 := hinf ▸ h
    rw [hcode hn, hinf']
    show _ = min (v.toNat % 2 ^ 31 / 2 ^ 16 +
      roundUp (v.toNat % 2 ^ 31 / 2 ^ 16) (v.toNat % 2 ^ 31 % 2 ^ 16) 16) _
    omega

end OpBase.Bfloat16
