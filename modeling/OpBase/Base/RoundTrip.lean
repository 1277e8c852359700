import OpBase.Base.Scalar
import OpBase.Fp16.FromFloat

/-!
# To `float` and back

A half is read as a `float` in every conversion that is not to an integer.

> `half_via_float`: this loses nothing, rounding gives the pattern back.
-/

namespace OpBase

open OpBase.Lib OpBase.Fp16
open FloatFormat (half single)

/-- The loop moves the first bit to the place of the hidden one. -/
theorem shiftToHideBit_eq : ∀ (n m : Nat) (e : Int), 2 ^ 10 ≤ m * 2 ^ n → m < 2 ^ 11 →
    ∃ k ≤ n, shiftToHideBit n m e = (m * 2 ^ k, e - k) ∧ 2 ^ 10 ≤ m * 2 ^ k ∧ m * 2 ^ k < 2 ^ 11
  | 0, m, e, hlo, hhi => ⟨0, le_rfl, by simp [shiftToHideBit], hlo, by simpa using hhi⟩
  | n + 1, m, e, hlo, hhi => by
    have hbit : m &&& FP16_MAN_HIDE_BIT = 0 ↔ m < 2 ^ 10 := by
      have := and_two_pow_pos m 10
      rw [FP16_MAN_HIDE_BIT, show 0x400 = 2 ^ 10 from rfl]
      omega
    unfold shiftToHideBit
    by_cases hlow : m < 2 ^ 10
    · have hmul : ∀ k, m * 2 * 2 ^ k = m * 2 ^ (k + 1) := fun k => by rw [Nat.pow_succ]; ring
      obtain ⟨k, hk, hrun, hbounds⟩ :=
        shiftToHideBit_eq n (m * 2) (e - 1) (by rwa [hmul]) (by omega)
      have hne : m ≠ 0 := by
        rintro rfl
        omega
      rw [hmul] at hrun hbounds
      rw [if_pos ⟨hne, hbit.mpr hlow⟩, Nat.shiftLeft_eq, pow_one, Nat.mod_eq_of_lt (by omega)]
      refine ⟨k + 1, by omega, ?_, hbounds⟩
      rw [hrun]
      push_cast
      congr 1
      ring
    · rw [if_neg fun h => hlow (hbit.mp h.2)]
      exact ⟨0, Nat.zero_le _, by simp, by simpa using hlow, by simpa using hhi⟩

theorem toNat_fp32Constructor {s e m : Nat} (hs : s < 2) (he : e < 2 ^ 8) (hm : m < 2 ^ 23) :
    (BitVec.ofNat 32 ((s <<< FP32_SIGN_INDEX) ||| (e <<< 23) ||| (m &&& 0x7FFFFF))).toNat =
      s * 2 ^ 31 + (e * 2 ^ 23 + m) := by
  have hman : m &&& 0x7FFFFF = m :=
    (Nat.and_two_pow_sub_one_eq_mod m 23).trans (Nat.mod_eq_of_lt hm)
  have hlow : e <<< 23 + m < 2 ^ 31 := by
    rw [Nat.shiftLeft_eq]
    omega
  rw [BitVec.toNat_ofNat, hman, Nat.or_assoc, ← Nat.shiftLeft_add_eq_or_of_lt hm, FP32_SIGN_INDEX,
    ← Nat.shiftLeft_add_eq_or_of_lt hlow, Nat.shiftLeft_eq, Nat.shiftLeft_eq]
  omega

theorem single_infinity : single.infinity = 255 * 2 ^ 23 := by decide

/-- What the fields of a `float` say. -/
theorem single_fields {w s c : Nat} (hs : s < 2) (hc : c < 2 ^ 31) (hw : w = s * 2 ^ 31 + c) :
    single.code w = c ∧ single.negative w = decide (s = 1) := by
  constructor
  · show w % 2 ^ 31 = c
    omega
  · show decide (w / 2 ^ 31 % 2 = 1) = _
    exact decide_eq_decide.mpr (by omega)

/-- A finite half keeps its value. -/
theorem fp16ToFloat_exact {v : BitVec 16} (hv : half.code v.toNat < half.infinity) :
    single.code (fp16ToFloat v).toNat < single.infinity ∧
      single.negative (fp16ToFloat v).toNat = half.negative v.toNat ∧
      single.magnitude (fp16ToFloat v).toNat = half.magnitude v.toNat := by
  have hf := extractFP16_fields hv
  have hs := hf.sign_lt
  have hle := hf.exp_le
  have hpos := hf.exp_pos
  have hsign : decide ((extractFP16 v.toNat).1 = 1) = half.negative v.toNat := by
    rw [hf.sign]
    cases half.negative v.toNat <;> rfl
  rw [hf.magnitude, ← hsign, single_infinity]
  have hman := hf.man_lt
  unfold fp16ToFloat
  generalize extractFP16 v.toNat = fields at *
  obtain ⟨s, e, m⟩ := fields
  dsimp only at *
  rcases Nat.eq_zero_or_pos m with rfl | hm
  · -- zero stays zero
    have hrun : shiftToHideBit 10 0 e = (0, (e : Int)) := rfl
    rw [hrun]
    obtain ⟨hcode, hneg⟩ := single_fields hs (by decide) (toNat_fp32Constructor hs
      (show 0 < 2 ^ 8 by decide) (show 0 < 2 ^ 23 by decide))
    refine ⟨hcode.trans_lt (by norm_num), hneg, ?_⟩
    refine (single.magnitude_place (e := 0) (m := 0) hcode (Or.inr rfl) (Nat.zero_le _)).trans ?_
    simp
  · -- the leading bit of a subnormal moves `k` places to the hidden bit
    obtain ⟨k, hk, hrun, hlo, hhi⟩ := shiftToHideBit_eq 10 m e (by omega) hman
    rw [hrun]
    dsimp only
    have hexp : ((e : Int) - k - FP16_EXP_BIAS + 127) % 2 ^ 32 = ((e + 112 - k : Nat) : Int) := by
      rw [FP16_EXP_BIAS]
      omega
    have hmant : (m * 2 ^ k) &&& FP16_MAX_MAN = m * 2 ^ k - 2 ^ 10 :=
      (Nat.and_two_pow_sub_one_eq_mod _ 10).trans (by omega)
    rw [if_neg (by omega), if_neg (by rw [FP16_MAX_EXP]; omega), hexp, hmant, Int.toNat_natCast]
    have hword := toNat_fp32Constructor hs (show e + 112 - k < 2 ^ 8 by omega)
      (show (m * 2 ^ k - 2 ^ 10) <<< 13 < 2 ^ 23 by omega)
    obtain ⟨hcode, hneg⟩ := single_fields hs (by omega) hword
    refine ⟨hcode.trans_lt (by omega), hneg, ?_⟩
    have hplace : single.code _ = (e + 111 - k) * 2 ^ 23 + m * 2 ^ k * 2 ^ 13 :=
      hcode.trans (by omega)
    refine (single.magnitude_place hplace (Or.inl (show 2 ^ 23 ≤ _ by omega))
      (show _ ≤ 2 ^ 24 by omega)).trans ?_
    -- the unit of a half is `2 ^ 125` units of a float
    have hunit : half.unit = 2 ^ 125 * single.unit := by
      unfold FloatFormat.unit FloatFormat.half FloatFormat.single
      norm_num
    have hpow : (2 : ℚ) ^ (e - 1) * 2 ^ 125 = 2 ^ k * 2 ^ 13 * 2 ^ (e + 111 - k) := by
      rw [← pow_add, ← pow_add, ← pow_add, show e - 1 + 125 = k + 13 + (e + 111 - k) by omega]
    rw [hunit, ← mul_assoc, mul_assoc (m : ℚ), hpow]
    push_cast
    ring

theorem eq_of_code {v w : Nat} (hv : v < 2 ^ 16) (hw : w < 2 ^ 16)
    (hcode : half.code v = half.code w) (hneg : half.negative v = half.negative w) : v = w := by
  rw [half_negative, half_negative, decide_eq_decide] at hneg
  rw [half_code, half_code] at hcode
  omega

theorem fp16ToFloat_inf {v : BitVec 16} (hv : half.code v.toNat = half.infinity) :
    single.code (fp16ToFloat v).toNat = single.infinity ∧
      single.negative (fp16ToFloat v).toNat = half.negative v.toNat := by
  have hlt := v.isLt
  rw [half_code, half_infinity] at hv
  have hbits : v = 0x7C00#16 ∨ v = 0xFC00#16 := by
    have hcases : v.toNat = 0x7C00 ∨ v.toNat = 0xFC00 := by omega
    exact hcases.imp (BitVec.eq_of_toNat_eq ·) (BitVec.eq_of_toNat_eq ·)
  rcases hbits with rfl | rfl
  · decide
  · decide

/-- **Reading a half as a `float` and rounding it again gives the half.** -/
theorem half_via_float (v : BitVec 16) (hv : half.code v.toNat ≤ half.infinity) :
    assignFloat (UInt32.ofBitVec (fp16ToFloat v)) = v.toNat := by
  have hconv := fp32Layout_for.converts (fp16ToFloat v).toNat
  have hword : assignFloat (UInt32.ofBitVec (fp16ToFloat v)) < 2 ^ 16 := Nat.mod_lt _ (by decide)
  rcases hv.lt_or_eq with hlt | heq
  · obtain ⟨hfin, hneg, hmag⟩ := fp16ToFloat_exact hlt
    have hround := hconv.finite hfin
    rw [hneg, hmag] at hround
    have hself : half.RoundsTo (half.negative v.toNat) (half.magnitude v.toNat) v.toNat :=
      ⟨rfl, _, nearestEven_self (grid_strictMono _ half.unit_pos) _, (Nat.min_eq_left hv).symm⟩
    exact eq_of_code hword v.isLt (hround.code_unique hself) hround.1
  · obtain ⟨hinf, hneg⟩ := fp16ToFloat_inf heq
    obtain ⟨hcode, hsign⟩ := hconv.inf hinf
    exact eq_of_code hword v.isLt (hcode.trans heq.symm) (hsign.trans hneg)

theorem half_via_float_subnormal : assignFloat (UInt32.ofBitVec (fp16ToFloat 0x8001#16)) = 0x8001 :=
  half_via_float 0x8001#16 (by decide)

end OpBase
