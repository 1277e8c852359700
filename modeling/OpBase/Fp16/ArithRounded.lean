import OpBase.Fp16.Arith

/-!
# The arithmetic is rounded, and where it overflows

`mRet` and `mTrunc` together are the exact sum, or the exact product, as long as the loops
lose no bit; and none of them does.

> `arith_rounded`: sum, difference and product are the exact result rounded to nearest, ties
> to even, if that is finite.
>
> `arith_overflow`: a larger one becomes infinity if it rounds to a power of two, else a NaN,
> for `Fp16Normalize` leaves the mantissa as it is.
-/

namespace OpBase.Fp16

open OpBase.Lib
open FloatFormat (half)

/-! ## The rounding of a sum -/

theorem nearest_small {n : Nat} (hn : n < 2 ^ 11) :
    NearestEven (grid 10 half.unit) (n * half.unit) n := by
  have h := nearestEven_place (p := 10) (e := 0) (m := n) (r := 0) (t := 0)
    (u := half.unit) (x := n * half.unit) (by decide)
    half.unit_pos (Or.inr rfl) hn (by decide) (by push_cast; ring)
  have hround : roundUp n 0 0 = 0 := if_neg (by omega)
  rwa [hround, Nat.zero_mul, Nat.zero_add, Nat.add_zero] at h

theorem codesWrapped_small {n : Nat} (hn : n < 2 ^ 10) : CodesWrapped (n * half.unit) (0, n) := by
  refine ⟨n, nearest_small (by omega), ?_⟩
  rw [normalCode_subnormal hn.le]
  exact (if_pos (hn.trans (by decide))).symm

theorem roundTrunc_zero (m s : Nat) : roundTrunc 0 m s = m / 2 ^ s := by
  rw [roundTrunc_eq (by decide), show roundUp m 0 32 = 0 from if_neg (by omega), Nat.add_zero]

variable {m : Nat} {x : ℚ}

/-- What is in `mRet` and `mTrunc` has a significand of eleven bits: it is rounded there. -/
theorem roundSum_normal {t b : Nat} (hlo : 2 ^ 10 ≤ m) (hhi : m < 2 ^ 11) (ht : t < 2 ^ 32)
    (hx : x * 2 ^ 32 = (m * 2 ^ 32 + t : Nat) * 2 ^ b * half.unit) :
    CodesWrapped x (let (mRet, eRet) := carryUp 0 (roundTrunc t m 0) (b + 1)
      (eRet, if eRet = 0 ∧ mRet ≤ manMax 0 then mRet >>> 1 else mRet)) := by
  have hdiv : (m * 2 ^ 32 + t) / 2 ^ 32 = m := by omega
  have hmod : (m * 2 ^ 32 + t) % 2 ^ 32 = t := by omega
  have hn := nearestEven_cut (p := 10) (a := b) (b := b) (D := 32) (t := 32)
    (u := half.unit) (w := half.unit / 2 ^ 32) (x := x)
    (M := m * 2 ^ 32 + t) (by decide)
    half.unit_pos ?_ (div_mul_cancel₀ _ (by positivity)) rfl
    (Or.inl (by rw [hdiv]; exact hlo)) (by rw [hdiv]; exact hhi)
  · rw [hdiv, hmod] at hn
    have hup := roundUp_le_one m t 32
    rw [roundTrunc_eq ht, pow_zero, Nat.div_one, carryUp_spec (by omega)]
    have hplace := codesWrapped_place hhi hlo hup hn
    by_cases hcarry : m + roundUp m t 32 = 2 ^ 11
    · rw [if_pos hcarry] at hplace ⊢
      exact hplace
    · rw [if_neg hcarry] at hplace ⊢
      exact hplace
  · rw [mul_div_assoc', ← hx, mul_div_cancel_right₀ _ (by positivity)]

/-- The sum of `P` units of the lower exponent, `D` exponents below the other one. -/
theorem roundSum_nearest {P D low : Nat} (hlow : 1 ≤ low) (hD : D ≤ 29) (hP : P < 2 ^ 12 * 2 ^ D) :
    CodesWrapped (P * 2 ^ (low - 1) * half.unit)
      (roundSum 0 (P / 2 ^ D) (P % 2 ^ D * 2 ^ (32 - D)) (low + D)) := by
  have hm0 : P / 2 ^ D < 2 ^ 12 := Nat.div_lt_of_lt_mul (by rwa [Nat.mul_comm])
  have hpow : 2 ^ D * 2 ^ (32 - D) = 2 ^ 32 := by rw [← Nat.pow_add, Nat.add_sub_cancel' (by omega)]
  have ht0 : P % 2 ^ D * 2 ^ (32 - D) < 2 ^ 32 := by
    rw [← hpow]
    exact Nat.mul_lt_mul_of_pos_right (Nat.mod_lt _ (Nat.two_pow_pos D)) (Nat.two_pow_pos _)
  have hV0 : P / 2 ^ D * 2 ^ 32 + P % 2 ^ D * 2 ^ (32 - D) = P * 2 ^ (32 - D) := by
    rw [← hpow, ← Nat.mul_assoc, ← Nat.add_mul, Nat.div_add_mod']
  obtain ⟨k, m, t, hrun, hk, ht, hval, hend, hsmall, -⟩ :=
    shiftUp_spec (show 2 ^ 10 ≤ 2 ^ 15 by decide) (e := low + D) (m := P / 2 ^ D) ht0
  rw [hV0] at hval
  have hmin : FP16_MAN_HIDE_BIT <<< 0 = 2 ^ 10 := rfl
  unfold roundSum
  rw [hmin, hrun]
  simp only []
  by_cases hall : k = low + D
  · -- exponent 0: half of the smallest number is the unit, and the sum is even
    have hexact : m * 2 ^ 32 + t = P * 2 ^ (low - 1) * 2 * 2 ^ 32 := by
      rw [hval, hall, show low + D = (low - 1) + 1 + D by omega, pow_add, pow_add, ← hpow]
      ring
    have ht0' : t = 0 := by omega
    have hlt : m < 2 ^ 11 := hsmall.resolve_left (by omega)
    have hhalf : m >>> 1 = P * 2 ^ (low - 1) := by
      rw [Nat.shiftRight_eq_div_pow, pow_one]
      omega
    rw [hall, Nat.sub_self, shiftDown_stop (by omega)]
    simp only []
    rw [ht0', roundTrunc_zero, pow_zero, Nat.div_one, carryUp_spec (by omega), if_neg (by omega)]
    dsimp only
    rw [if_pos ⟨rfl, by rw [manMax_eq]; omega⟩, hhalf]
    have h := codesWrapped_small (n := P * 2 ^ (low - 1)) (by omega)
    push_cast at h
    exact h
  · have hlo := hend.resolve_left hall
    obtain ⟨b, hb⟩ := Nat.exists_eq_add_of_lt (show k < low + D by omega)
    have hexact : (m * 2 ^ 32 + t) * 2 ^ b = P * 2 ^ (low - 1) * 2 ^ 32 := by
      have hlast : low - 1 + D = k + b := by omega
      rw [hval, ← hpow]
      calc P * 2 ^ (32 - D) * 2 ^ k * 2 ^ b = P * 2 ^ (32 - D) * 2 ^ (k + b) := by ring
        _ = _ := by rw [← hlast]; ring
    have hq : ((m * 2 ^ 32 + t : Nat) : ℚ) * 2 ^ b = P * 2 ^ (low - 1) * 2 ^ 32 := by
      exact_mod_cast hexact
    have hm12 : m < 2 ^ 12 := by
      rcases hsmall with h | h
      · rw [h, pow_zero, Nat.mul_one, ← hV0] at hval
        clear hexact hq
        omega
      · omega
    have he : low + D - k = b + 1 := by omega
    rw [he, shiftDown_spec hm12 ht]
    by_cases hbig : 2 ^ 11 ≤ m
    · -- the mantissas of two numbers of about one size: a bit more in front, none behind
      have hhalf : (m / 2 * 2 ^ 32 + (t / 2 + 2 ^ 31 * (m % 2))) * 2 = m * 2 ^ 32 + t := by
        have heven : P * 2 ^ (32 - D) = P * 2 ^ (31 - D) * 2 := by
          rw [show 32 - D = (31 - D) + 1 by omega, Nat.pow_succ, Nat.mul_assoc]
        have hk0 : k = 0 := hsmall.resolve_right (by omega)
        rw [hk0, pow_zero, Nat.mul_one, heven] at hval
        clear hexact hq hV0
        omega
      have hexact' : (m / 2 * 2 ^ 32 + (t / 2 + 2 ^ 31 * (m % 2))) * 2 ^ (b + 1) =
          P * 2 ^ (low - 1) * 2 ^ 32 := by
        rw [Nat.pow_succ' (n := b), ← Nat.mul_assoc, hhalf, hexact]
      have hq' : ((m / 2 * 2 ^ 32 + (t / 2 + 2 ^ 31 * (m % 2)) : Nat) : ℚ) * 2 ^ (b + 1) =
          P * 2 ^ (low - 1) * 2 ^ 32 := by
        exact_mod_cast hexact'
      have ht' : t / 2 + 2 ^ 31 * (m % 2) < 2 ^ 32 := by omega
      rw [if_pos hbig]
      refine roundSum_normal (by omega) (by omega) ht' ?_
      rw [hq']
      ring
    · rw [if_neg hbig]
      refine roundSum_normal hlo (by omega) ht ?_
      rw [hq]
      ring

theorem roundSum_four {e : Nat} (he : 2 ≤ e) :
    CodesWrapped (2 ^ (e - 2) * half.unit) (roundSum 3 4 0 e) := by
  obtain ⟨k, m, t, hrun, hk, ht, hval, hend, hsmall, hmove⟩ :=
    shiftUp_spec (show 2 ^ 13 ≤ 2 ^ 15 by decide) (e := e) (m := 4) (t := 0) (by decide)
  have hk0 : 0 < k := hmove (by decide) (by omega)
  have hlt : m < 2 ^ 14 := by
    have := hsmall.resolve_left (by omega)
    omega
  have hpow : 2 ^ k = 2 * 2 ^ (k - 1) := by
    rw [← Nat.pow_succ']
    congr 1
    omega
  rw [hpow] at hval
  have ht0 : t = 0 := by omega
  have hmin : FP16_MAN_HIDE_BIT <<< 3 = 2 ^ 13 := rfl
  have heighth : m / 2 ^ 3 = 2 ^ (k - 1) := by omega
  unfold roundSum
  rw [hmin, hrun]
  dsimp only
  rw [shiftDown_stop hlt]
  dsimp only
  rw [ht0, roundTrunc_zero, heighth, carryUp_spec (by omega), if_neg (by omega)]
  dsimp only
  by_cases hall : k = e
  · have hhalf : 2 ^ (k - 1) >>> 1 = 2 ^ (e - 2) := by
      rw [Nat.shiftRight_eq_div_pow, hall, show e - 1 = (e - 2) + 1 by omega, Nat.pow_succ, pow_one,
        Nat.mul_div_cancel _ (by decide)]
    have hsmall' : 2 ^ (e - 2) < 2 ^ 10 := by
      rw [← hhalf, Nat.shiftRight_eq_div_pow, pow_one]
      omega
    rw [if_pos ⟨by omega, by rw [manMax_eq]; omega⟩, hhalf, hall, Nat.sub_self]
    have h := codesWrapped_small hsmall'
    push_cast at h
    exact h
  · -- the eighths have become the hidden bit
    have hlo := hend.resolve_left hall
    have hk11 : k = 11 := by
      have h1 : 2 ^ 10 ≤ 2 ^ (k - 1) := by omega
      have h2 : 2 ^ (k - 1) < 2 ^ 11 := by omega
      have h1' := (Nat.pow_le_pow_iff_right (by decide)).mp h1
      have h2' := (Nat.pow_lt_pow_iff_right (by decide)).mp h2
      omega
    obtain ⟨b, rfl⟩ : ∃ b, e = b + 12 := ⟨e - 12, by omega⟩
    rw [if_neg (fun hc => by omega), hk11]
    have hn := nearestEven_place (p := 10) (e := b) (m := 2 ^ 10) (r := 0) (t := 0)
      (u := half.unit) (x := 2 ^ (b + 12 - 2) * half.unit) (by decide)
      half.unit_pos (Or.inl le_rfl) (by decide) (by decide) (by
        rw [show b + 12 - 2 = b + 10 by omega, pow_add]
        push_cast
        ring)
    have h := codesWrapped_place (by decide) le_rfl (roundUp_le_one _ _ _) hn
    have hround : roundUp (2 ^ 10) 0 0 = 0 := if_neg (by decide)
    rw [hround, Nat.add_zero, if_neg (by decide)] at h
    rw [show b + 12 - 11 = b + 1 by omega]
    exact h

theorem roundSum_zero (e : Nat) : CodesWrapped 0 (roundSum 3 0 0 e) := by
  obtain ⟨k, m, t, hrun, hk, ht, hval, hend, -, -⟩ :=
    shiftUp_spec (show 2 ^ 13 ≤ 2 ^ 15 by decide) (e := e) (m := 0) (t := 0) (by decide)
  rw [Nat.zero_mul, Nat.zero_add, Nat.zero_mul] at hval
  have hm : m = 0 := by omega
  have ht0 : t = 0 := by omega
  have hmin : FP16_MAN_HIDE_BIT <<< 3 = 2 ^ 13 := rfl
  unfold roundSum
  rw [hmin, hrun, hend.resolve_right (by omega), Nat.sub_self, hm, ht0]
  dsimp only
  rw [shiftDown_stop (by decide)]
  dsimp only
  rw [roundTrunc_zero, Nat.zero_div, carryUp_spec (Nat.zero_le _), if_neg (by decide)]
  dsimp only
  rw [if_pos ⟨rfl, Nat.zero_le _⟩]
  have h := codesWrapped_small (n := 0) (by decide)
  rwa [Nat.cast_zero, zero_mul] at h

/-! ## Alignment -/

/-- The sum of two mantissas with signs, in units of the lower exponent. -/
def alignedSum (eA : Nat) (a : ℤ) (eB : Nat) (b : ℤ) : ℤ :=
  a * 2 ^ (eA - min eA eB) + b * 2 ^ (eB - min eA eB)

/-- By how much the exponents differ. -/
def expDiff (eA eB : Nat) : Nat := max eA eB - min eA eB

theorem rightShift_wordOf {x : ℤ} (hlo : -2 ^ 31 ≤ x) (hhi : x < 2 ^ 31) (k : Nat) :
    rightShift (wordOf 32 x) k = wordOf 32 (x / 2 ^ k) := wordOf_shiftRight hlo hhi k

section Align

variable {eA eB : Nat} {a b : ℤ}

theorem alignedSum_comm (eA eB : Nat) (a b : ℤ) : alignedSum eA a eB b = alignedSum eB b eA a := by
  unfold alignedSum
  rw [Nat.min_comm, Int.add_comm]

theorem expDiff_comm (eA eB : Nat) : expDiff eA eB = expDiff eB eA := by
  unfold expDiff
  rw [Nat.min_comm, Nat.max_comm]

theorem alignedSum_of_le (h : eB ≤ eA) (a b : ℤ) :
    alignedSum eA a eB b = a * 2 ^ (eA - eB) + b := by
  unfold alignedSum
  rw [Nat.min_eq_right h, Nat.sub_self, pow_zero, mul_one]

theorem expDiff_of_le (h : eB ≤ eA) : expDiff eA eB = eA - eB := by
  unfold expDiff
  rw [Nat.min_eq_right h, Nat.max_eq_left h]

theorem alignedSum_div (h : eB ≤ eA) (a b : ℤ) :
    alignedSum eA a eB b / 2 ^ expDiff eA eB = a + b / 2 ^ (eA - eB) := by
  rw [alignedSum_of_le h, expDiff_of_le h, Int.add_comm, Int.add_mul_ediv_right _ _ (by positivity),
    Int.add_comm]

theorem getManSum_wordOf (eA eB : Nat) (ha : -2 ^ 31 ≤ a ∧ a < 2 ^ 31)
    (hb : -2 ^ 31 ≤ b ∧ b < 2 ^ 31) :
    getManSum eA (wordOf 32 a) eB (wordOf 32 b) =
      wordOf 32 (alignedSum eA a eB b / 2 ^ expDiff eA eB) := by
  unfold getManSum
  split
  next h =>
    rw [rightShift_wordOf hb.1 hb.2, wordOf_add, alignedSum_div h.le]
  next h =>
    split
    next h' =>
      rw [rightShift_wordOf ha.1 ha.2, wordOf_add, alignedSum_comm, expDiff_comm,
        alignedSum_div h'.le, Int.add_comm]
    next h' =>
      have heq : eA = eB := by omega
      rw [wordOf_add, alignedSum_div heq.ge, heq, Nat.sub_self, pow_zero, Int.ediv_one]

theorem alignedSum_low (h : eB ≤ eA) (a b : ℤ) :
    wordOf (expDiff eA eB) (alignedSum eA a eB b) = wordOf (eA - eB) b := by
  rw [expDiff_of_le h, alignedSum_of_le h]
  exact wordOf_congr (Int.mul_add_emod_self_right ..)

/-- Aligning splits the exact sum into what is kept and what is shifted out. -/
theorem alignMans_wordOf (ha : -2 ^ 31 ≤ a ∧ a < 2 ^ 31) (hb : -2 ^ 31 ≤ b ∧ b < 2 ^ 31)
    (hD : expDiff eA eB ≤ 32) :
    alignMans eA (wordOf 32 a) eB (wordOf 32 b) =
      (wordOf 16 (alignedSum eA a eB b / 2 ^ expDiff eA eB),
        wordOf (expDiff eA eB) (alignedSum eA a eB b) * 2 ^ (32 - expDiff eA eB)) := by
  have hcut : ∀ n m : Nat, (n + m) % 2 ^ 16 = (n + m) % 2 ^ 32 % 2 ^ 16 := fun n m => by omega
  unfold alignMans
  split
  -- The operand with the smaller exponent is shifted; the other case is the mirror image.
  next h =>
    rw [rightShift_wordOf hb.1 hb.2, hcut, wordOf_add, wordOf_mod (by decide), alignedSum_div h.le,
      alignedSum_low h.le]
    rw [expDiff_of_le h.le] at hD ⊢
    exact congrArg _ (wordOf_shiftLeft_top hD b)
  next h =>
    split
    next h' =>
      rw [rightShift_wordOf ha.1 ha.2, hcut, wordOf_add, wordOf_mod (by decide), alignedSum_comm,
        expDiff_comm, alignedSum_div h'.le, alignedSum_low h'.le, Int.add_comm]
      rw [expDiff_comm, expDiff_of_le h'.le] at hD
      rw [expDiff_of_le h'.le]
      exact congrArg _ (wordOf_shiftLeft_top hD a)
    next h' =>
      have heq : eA = eB := by omega
      subst heq
      rw [hcut, wordOf_add, wordOf_mod (by decide), alignedSum_div le_rfl, alignedSum_low le_rfl,
        Nat.sub_self, pow_zero, Int.ediv_one, ← wordOf_mod (Nat.zero_le 32), pow_zero, Nat.mod_one,
        Nat.zero_mul]

end Align

/-! ## Signs -/

def signedMan (s m : Nat) : ℤ := if s = 0 then m else -m

theorem reverseMan_wordOf (s : Nat) (x : ℤ) :
    reverseMan (decide (0 < s)) (wordOf 32 x) = wordOf 32 (if s = 0 then x else -x) := by
  unfold reverseMan
  by_cases h : s = 0
  · simp [h]
  · have hle := wordOf_lt 32 x
    rw [decide_eq_true (Nat.pos_of_ne_zero h), if_pos rfl, if_neg h, ← wordOf_neg,
      show 2 ^ 32 - 1 - wordOf 32 x + 1 = 2 ^ 32 - wordOf 32 x by omega]

theorem reverseMan_natCast (s : Nat) (hm : m < 2 ^ 32) :
    reverseMan (decide (0 < s)) m = wordOf 32 (signedMan s m) := by
  conv_lhs => rw [← wordOf_natCast hm]
  exact reverseMan_wordOf s m

theorem alignedSum_neg (eA eB : Nat) (a b : ℤ) :
    alignedSum eA (-a) eB (-b) = -alignedSum eA a eB b := by
  unfold alignedSum
  ring

theorem alignedSum_mul (eA eB : Nat) (a b c : ℤ) :
    alignedSum eA (a * c) eB (b * c) = alignedSum eA a eB b * c := by
  unfold alignedSum
  ring

theorem alignedSum_lt (eA eB : Nat) {k : Nat} {a b : ℤ} (ha : -2 ^ k < a ∧ a < 2 ^ k)
    (hb : -2 ^ k < b ∧ b < 2 ^ k) : -2 ^ (k + 1) * 2 ^ expDiff eA eB < alignedSum eA a eB b ∧
      alignedSum eA a eB b < 2 ^ (k + 1) * 2 ^ expDiff eA eB := by
  have key : ∀ {eA eB : Nat} {a b : ℤ}, eB ≤ eA → -2 ^ k < a ∧ a < 2 ^ k → -2 ^ k < b ∧ b < 2 ^ k →
      -2 ^ (k + 1) * 2 ^ expDiff eA eB < alignedSum eA a eB b ∧
        alignedSum eA a eB b < 2 ^ (k + 1) * 2 ^ expDiff eA eB := by
    intro eA eB a b h ha hb
    rw [expDiff_of_le h, alignedSum_of_le h]
    have hD : (1 : ℤ) ≤ 2 ^ (eA - eB) := one_le_pow₀ (by decide)
    have hk : (2 : ℤ) ^ k ≤ 2 ^ k * 2 ^ (eA - eB) := le_mul_of_one_le_right (by positivity) hD
    have hlo := mul_lt_mul_of_pos_right ha.1 (zero_lt_one.trans_le hD)
    have hhi := mul_lt_mul_of_pos_right ha.2 (zero_lt_one.trans_le hD)
    rw [pow_succ]
    exact ⟨by linarith [hb.1], by linarith [hb.2]⟩
  rcases Nat.le_total eB eA with h | h
  · exact key h ha hb
  · rw [alignedSum_comm, expDiff_comm]
    exact key h hb ha

/-- A sum below the places that are kept is zero, or half a place. -/
theorem small_sum (sA sB : Nat) {eA mA eB mB : Nat} (hA : 2 ^ 10 ≤ mA ∨ eA = 1)
    (hB : 2 ^ 10 ≤ mB ∨ eB = 1) (heA : 1 ≤ eA) (heB : 1 ≤ eB) (hmA : mA < 2 ^ 11)
    (hmB : mB < 2 ^ 11) {S : ℤ} (hsum : alignedSum eA (signedMan sA mA) eB (signedMan sB mB) = S)
    (hS : S.natAbs < 2 ^ expDiff eA eB) : S.natAbs = 0 ∨ S.natAbs = 1 ∧ expDiff eA eB = 1 := by
  have key : ∀ {sA eA mA sB eB mB : Nat}, alignedSum eA (signedMan sA mA) eB (signedMan sB mB) = S →
      eB ≤ eA → 2 ^ 10 ≤ mA ∨ eA = 1 → 1 ≤ eB → mB < 2 ^ 11 → S.natAbs < 2 ^ expDiff eA eB →
      S.natAbs = 0 ∨ S.natAbs = 1 ∧ expDiff eA eB = 1 := by
    rintro sA eA mA sB eB mB rfl h hA heB hmB hS
    rw [expDiff_of_le h, alignedSum_of_le h] at hS ⊢
    by_cases hD : eA - eB = 0
    · rw [hD, pow_zero] at hS ⊢
      omega
    · -- the higher mantissa weighs at least a thousand units, the other one two thousand parts
      obtain ⟨d, hd⟩ := Nat.exists_eq_succ_of_ne_zero hD
      have hA' : 2 ^ 10 ≤ mA := hA.resolve_right (by omega)
      have hmul : 2 ^ 10 * 2 ^ d ≤ mA * 2 ^ d := Nat.mul_le_mul_right _ hA'
      have hsign : ∀ s m : Nat, signedMan s m = m ∨ signedMan s m = -m := by
        intro s m
        unfold signedMan
        split
        · exact Or.inl rfl
        · exact Or.inr rfl
      have hpow : (2 : ℤ) ^ (eA - eB) = 2 * (2 ^ d : Nat) := by
        rw [hd, pow_succ']
        push_cast
        rfl
      have hpow' : 2 ^ (eA - eB) = 2 * 2 ^ d := by rw [hd, Nat.pow_succ']
      have hscale : ∀ m : Nat, (m : ℤ) * (2 * (2 ^ d : Nat)) = 2 * (m * 2 ^ d : Nat) := by
        intro m
        push_cast
        ring
      have hscale' : ∀ m : Nat, -(m : ℤ) * (2 * (2 ^ d : Nat)) = -(2 * (m * 2 ^ d : Nat)) := by
        intro m
        push_cast
        ring
      rw [hpow, hpow'] at hS
      rw [hpow]
      have hd0 : d = 0 ∨ 2 ≤ 2 ^ d := by
        rcases Nat.eq_zero_or_pos d with h0 | h0
        · exact Or.inl h0
        · exact Or.inr (Nat.pow_le_pow_right (n := 2) (by decide) h0)
      rcases hsign sA mA with ha | ha <;> rcases hsign sB mB with hb | hb <;>
        rw [ha, hb] at hS ⊢ <;> first | rw [hscale] at hS ⊢ | rw [hscale'] at hS ⊢
      all_goals
        rcases hd0 with h0 | h2
        · rw [h0, pow_zero] at hS hmul ⊢
          omega
        · generalize 2 ^ d = p at *
          generalize mA * p = M at *
          omega
  rcases Nat.le_total eB eA with h | h
  · exact key hsum h hA heB hmB hS
  · rw [alignedSum_comm] at hsum
    rw [expDiff_comm] at hS ⊢
    exact key hsum h hB heA hmA hS

/-- What `signedMans` hands on for the exact sum `S`: its sign, and mantissas whose sum is its
magnitude, in eighths if that is less than a unit. -/
structure SignedMans (eA eB : Nat) (S : ℤ) (r : Nat × Nat × Nat × Nat) : Prop where
  sign_lt : r.1 < 2
  sign : S ≠ 0 → (r.1 = 1 ↔ S < 0)
  mans : ∃ a b : ℤ, r.2.1 = wordOf 32 a ∧ r.2.2.1 = wordOf 32 b ∧ -2 ^ 14 < a ∧ a < 2 ^ 14 ∧
    -2 ^ 14 < b ∧ b < 2 ^ 14 ∧ alignedSum eA a eB b = S.natAbs * 2 ^ r.2.2.2
  shift : r.2.2.2 = 0 ∨ r.2.2.2 = 3 ∧ (S.natAbs = 0 ∨ S.natAbs = 1 ∧ expDiff eA eB = 1)

section SignedMans

variable {sA eA mA sB eB mB : Nat}

theorem SignedMans.shiftOut {S q a b : ℤ} (sRet : Nat) (hs : sRet < 2)
    (hsign : S ≠ 0 → (sRet = 1 ↔ S < 0)) (ha : -2 ^ 11 < a ∧ a < 2 ^ 11)
    (hb : -2 ^ 11 < b ∧ b < 2 ^ 11) (hsum : alignedSum eA a eB b = S.natAbs)
    (hq : -2 ^ 15 ≤ q ∧ q < 2 ^ 15)
    (hsmall : q = 0 → S.natAbs = 0 ∨ S.natAbs = 1 ∧ expDiff eA eB = 1) :
    SignedMans eA eB S
      (if wordOf 16 q = 0 then
        (sRet, (wordOf 32 a <<< FP16_DENORM_SHIFT) % 2 ^ 32,
          (wordOf 32 b <<< FP16_DENORM_SHIFT) % 2 ^ 32, FP16_DENORM_SHIFT)
      else (sRet, wordOf 32 a, wordOf 32 b, 0)) := by
  by_cases h0 : wordOf 16 q = 0
  · have hcast := wordOf_cast 16 q
    -- The word is 16 bits wide and `q` fits, so only 0 itself reads as 0.
    have hq0 : q = 0 := by
      rw [h0] at hcast
      omega
    rw [if_pos h0, wordOf_shiftLeft, wordOf_shiftLeft]
    refine ⟨hs, hsign, ⟨a * 2 ^ 3, b * 2 ^ 3, rfl, rfl, by omega, by omega, by omega, by omega, ?_⟩,
      Or.inr ⟨rfl, hsmall hq0⟩⟩
    rw [alignedSum_mul, hsum]
    rfl
  · rw [if_neg h0]
    exact ⟨hs, hsign, ⟨a, b, rfl, rfl, by omega, by omega, by omega, by omega,
      by rw [hsum, pow_zero, mul_one]⟩, Or.inl rfl⟩

theorem signedMan_bound (s : Nat) (hm : m < 2 ^ 11) :
    -2 ^ 11 < signedMan s m ∧ signedMan s m < 2 ^ 11 := by
  unfold signedMan
  split <;> omega

/-- The sign and the two words of the aligned sum. -/
theorem signedMans_spec (hA : 2 ^ 10 ≤ mA ∨ eA = 1) (hB : 2 ^ 10 ≤ mB ∨ eB = 1) (heA : 1 ≤ eA)
    (heB : 1 ≤ eB) (hmA : mA < 2 ^ 11) (hmB : mB < 2 ^ 11) (hsA : sA < 2) (hsB : sB < 2) :
    SignedMans eA eB (alignedSum eA (signedMan sA mA) eB (signedMan sB mB))
      (signedMans sA eA mA sB eB mB) := by
  have hpos : (0 : ℤ) < 2 ^ expDiff eA eB := by positivity
  have hrange : ∀ {a b : ℤ}, -2 ^ 11 < a ∧ a < 2 ^ 11 → -2 ^ 11 < b ∧ b < 2 ^ 11 →
      -2 ^ 15 ≤ alignedSum eA a eB b / 2 ^ expDiff eA eB ∧
        alignedSum eA a eB b / 2 ^ expDiff eA eB < 2 ^ 15 := by
    intro a b ha hb
    obtain ⟨hlo, hhi⟩ := alignedSum_lt eA eB ha hb
    rw [Int.le_ediv_iff_mul_le hpos, Int.ediv_lt_iff_lt_mul hpos]
    generalize (2 : ℤ) ^ expDiff eA eB = D at *
    norm_num at hlo hhi ⊢
    exact ⟨by linarith, by linarith⟩
  have hA' := signedMan_bound sA hmA
  have hB' := signedMan_bound sB hmB
  have hsmall := small_sum sA sB hA hB heA heB hmA hmB rfl
  unfold signedMans
  by_cases hne : sA = sB
  · -- two of one sign: the sum of the magnitudes
    subst hne
    have hmag : alignedSum eA mA eB mB =
        (alignedSum eA (signedMan sA mA) eB (signedMan sA mB)).natAbs := by
      have hnn : 0 ≤ alignedSum eA mA eB mB := by
        unfold alignedSum
        positivity
      unfold signedMan
      by_cases hs : sA = 0
      · rw [if_pos hs, if_pos hs]
        omega
      · rw [if_neg hs, if_neg hs, alignedSum_neg]
        omega
    have hqA : -2 ^ 11 < (mA : ℤ) ∧ (mA : ℤ) < 2 ^ 11 := by omega
    have hqB : -2 ^ 11 < (mB : ℤ) ∧ (mB : ℤ) < 2 ^ 11 := by omega
    have hwA : mA = wordOf 32 mA := (wordOf_natCast (by omega)).symm
    have hwB : mB = wordOf 32 mB := (wordOf_natCast (by omega)).symm
    have hword : getManSum eA mA eB mB % 2 ^ 16 =
        wordOf 16 (alignedSum eA mA eB mB / 2 ^ expDiff eA eB) := by
      have h := getManSum_wordOf eA eB (a := mA) (b := mB) (by omega) (by omega)
      rw [← hwA, ← hwB] at h
      rw [h, wordOf_mod (by decide)]
    have hsign : alignedSum eA (signedMan sA mA) eB (signedMan sA mB) ≠ 0 →
        (sA = 1 ↔ alignedSum eA (signedMan sA mA) eB (signedMan sA mB) < 0) := by
      intro hS
      unfold signedMan at hS hmag ⊢
      by_cases hs : sA = 0
      · simp only [if_pos hs] at hS hmag ⊢
        omega
      · simp only [if_neg hs, alignedSum_neg] at hS hmag ⊢
        omega
    have hq := hrange hqA hqB
    have hend := SignedMans.shiftOut sA hsA hsign hqA hqB hmag hq (fun h0 => by
      refine hsmall ?_
      have hlt := (Int.ediv_lt_iff_lt_mul hpos).mp (h0.trans_lt zero_lt_one)
      rw [hmag, one_mul] at hlt
      exact_mod_cast hlt)
    rw [← hwA, ← hwB, ← hword] at hend
    rw [if_neg (not_not.mpr rfl)]
    exact hend
  · -- of different signs: the complement of the negative one is added
    have hS := hrange hA' hB'
    generalize hq : alignedSum eA (signedMan sA mA) eB (signedMan sB mB) / 2 ^ expDiff eA eB = q
      at hS
    have hrA := reverseMan_natCast sA (show mA < 2 ^ 32 by omega)
    have hrB := reverseMan_natCast sB (show mB < 2 ^ 32 by omega)
    have hword : getManSum eA (reverseMan (decide (0 < sA)) mA) eB
        (reverseMan (decide (0 < sB)) mB) % 2 ^ 16 = wordOf 16 q := by
      rw [hrA, hrB, getManSum_wordOf _ _ (by omega) (by omega), wordOf_mod (by decide), hq]
    have hneg : q < 0 ↔ alignedSum eA (signedMan sA mA) eB (signedMan sB mB) < 0 := by
      rw [← hq, Int.ediv_lt_iff_lt_mul hpos, zero_mul]
    have hsRet : (wordOf 16 q &&& FP16_SIGN_MASK) >>> FP16_SIGN_INDEX = if q < 0 then 1 else 0 := by
      have hsign := wordOf_sign (w := 15) hS.1 hS.2
      rw [Nat.shiftRight_and_distrib, Nat.shiftRight_eq_div_pow]
      show wordOf 16 q / 2 ^ 15 &&& 1 = _
      rw [hsign, Nat.and_one_is_mod]
      split <;> rfl
    have hq0 : q = 0 → (alignedSum eA (signedMan sA mA) eB (signedMan sB mB)).natAbs = 0 ∨
        (alignedSum eA (signedMan sA mA) eB (signedMan sB mB)).natAbs = 1 ∧ expDiff eA eB = 1 := by
      intro h0
      refine hsmall ?_
      rw [h0] at hq
      have hlt := (Int.ediv_lt_iff_lt_mul hpos).mp (hq.trans_lt zero_lt_one)
      have hge := (Int.le_ediv_iff_mul_le hpos).mp hq.ge
      rw [one_mul] at hlt
      rw [zero_mul] at hge
      have : ((alignedSum eA (signedMan sA mA) eB (signedMan sB mB)).natAbs : ℤ) <
          2 ^ expDiff eA eB := by omega
      exact_mod_cast this
    rw [if_pos hne]
    dsimp only
    rw [hword, hsRet, hrA, hrB]
    by_cases hlt : q < 0
    · have hSneg := hneg.mp hlt
      have hend := SignedMans.shiftOut 1 (a := -signedMan sA mA) (b := -signedMan sB mB)
        (by decide) (fun _ => by simp [hSneg]) (by omega) (by omega)
        (by rw [alignedSum_neg]; omega) hS hq0
      rw [if_pos hlt, reverseMan_wordOf, reverseMan_wordOf]
      exact hend
    · have hSpos := mt hneg.mpr hlt
      have hend := SignedMans.shiftOut 0 (a := signedMan sA mA) (b := signedMan sB mB)
        (by decide) (fun _ => by simp [hSpos]) hA' hB' (by omega) hS hq0
      rw [if_neg hlt, reverseMan_wordOf, reverseMan_wordOf]
      exact hend

end SignedMans

/-! ## The sum -/

/-- The pattern has the sign of the exact result, and the code of the number nearest to it, but
cut at the exponent of infinity. -/
structure Wraps (x : ℚ) (w : Nat) : Prop where
  code : ∃ n, NearestEven (grid 10 half.unit) |x| n ∧ half.code w = wrapped n
  sign : x ≠ 0 → half.negative w = decide (x < 0)

/-- Sign, exponent and mantissa of `x` before they are normalised. -/
structure Parts (x : ℚ) (sem : Nat × Nat × Nat) : Prop where
  sign_lt : sem.1 < 2
  sign : x ≠ 0 → (sem.1 = 1 ↔ x < 0)
  code : CodesWrapped |x| sem.2

theorem Parts.wraps {sem : Nat × Nat × Nat} (h : Parts x sem) :
    Wraps x (normalConstructor sem.1 sem.2) := by
  obtain ⟨n, hn, hcode⟩ := h.code
  refine ⟨⟨n, hn, by rw [code_normalConstructor h.sign_lt, hcode]⟩, fun hx => ?_⟩
  rw [negative_normalConstructor h.sign_lt]
  exact decide_eq_decide.mpr (h.sign hx)

theorem Fields.value {v s e : Nat} (h : Fields v s e m) :
    half.value v = signedMan s m * 2 ^ (e - 1) * half.unit := by
  unfold FloatFormat.value signedMan
  rw [h.magnitude, h.sign]
  by_cases hneg : half.negative v = true
  · rw [if_pos hneg, if_pos hneg, if_neg (by decide)]
    push_cast
    ring
  · rw [if_neg hneg, if_neg hneg, if_pos rfl]
    push_cast
    rfl

theorem alignedSum_value {v1 v2 sA eA mA sB eB mB : Nat} (hA : Fields v1 sA eA mA)
    (hB : Fields v2 sB eB mB) : half.value v1 + half.value v2 =
      alignedSum eA (signedMan sA mA) eB (signedMan sB mB) * 2 ^ (min eA eB - 1) * half.unit := by
  have hp := hA.exp_pos
  have hp' := hB.exp_pos
  rw [hA.value, hB.value, show eA - 1 = eA - min eA eB + (min eA eB - 1) by omega,
    show eB - 1 = eB - min eA eB + (min eA eB - 1) by omega]
  unfold alignedSum
  push_cast
  rw [pow_add, pow_add]
  ring

theorem abs_mul_pow_unit (z : ℤ) (k : Nat) :
    |(z : ℚ) * 2 ^ k * half.unit| = z.natAbs * 2 ^ k * half.unit := by
  rw [abs_mul, abs_mul, abs_of_pos half.unit_pos,
    abs_of_pos (show (0 : ℚ) < 2 ^ k by positivity), ← Int.cast_abs, Nat.cast_natAbs]

/-- What `fp16Add` normalises. -/
def sumParts (v1 v2 : Nat) : Nat × Nat × Nat :=
  let (sA, eA, mA) := extractFP16 v1
  let (sB, eB, mB) := extractFP16 v2
  let (sRet, mA, mB, shiftOut) := signedMans sA eA mA sB eB mB
  let (mRet, mTrunc) := alignMans eA mA eB mB
  (sRet, roundSum shiftOut mRet mTrunc (max eA eB))

/-- Sign, exponent and significand of a sum are those of the rounded one. -/
theorem sumParts_parts {v1 v2 : Nat} (h1 : half.code v1 < half.infinity)
    (h2 : half.code v2 < half.infinity) :
    Parts (half.value v1 + half.value v2) (sumParts v1 v2) := by
  have hA := extractFP16_fields h1
  have hB := extractFP16_fields h2
  unfold sumParts
  generalize extractFP16 v1 = fA at *
  generalize extractFP16 v2 = fB at *
  obtain ⟨sA, eA, mA⟩ := fA
  obtain ⟨sB, eB, mB⟩ := fB
  dsimp only at hA hB ⊢
  have hsA := hA.sign_lt
  have hsB := hB.sign_lt
  have hspec :=
    signedMans_spec hA.hidden hB.hidden hA.exp_pos hB.exp_pos hA.man_lt hB.man_lt hsA hsB
  have hlt := alignedSum_lt eA eB (signedMan_bound sA hA.man_lt) (signedMan_bound sB hB.man_lt)
  -- The exact sum is `S` in units of the smaller operand's last place.
  rw [alignedSum_value hA hB]
  generalize alignedSum eA (signedMan sA mA) eB (signedMan sB mB) = S at *
  generalize signedMans sA eA mA sB eB mB = r at *
  obtain ⟨sRet, manA, manB, shift⟩ := r
  obtain ⟨hs, hsign, ⟨a, b, hmanA, hmanB, halo, hahi, hblo, hbhi, hsum⟩, hshift⟩ := hspec
  have hpA := hA.exp_pos
  have hpB := hB.exp_pos
  have hlA := hA.exp_le
  have hlB := hB.exp_le
  have hD : expDiff eA eB ≤ 29 := by unfold expDiff; omega
  have hmax : max eA eB = min eA eB + expDiff eA eB := by unfold expDiff; omega
  have hlow : 1 ≤ min eA eB := by omega
  have hP : S.natAbs < 2 ^ 12 * 2 ^ expDiff eA eB := by
    have : (S.natAbs : ℤ) < 2 ^ 12 * 2 ^ expDiff eA eB := by omega
    exact_mod_cast this
  dsimp only at hs hsign hmanA hmanB hsum hshift ⊢
  rw [hmanA, hmanB, alignMans_wordOf (by omega) (by omega) (by omega), hsum, hmax]
  generalize expDiff eA eB = D at *
  generalize min eA eB = low at *
  have hunit : (0 : ℚ) < 2 ^ (low - 1) * half.unit :=
    mul_pos (by positivity) half.unit_pos
  refine ⟨hs, fun hx => ?_, ?_⟩
  · have hS : S ≠ 0 := by
      rintro rfl
      exact hx (by push_cast; ring)
    rw [hsign hS, mul_assoc, ← zero_mul (2 ^ (low - 1) * half.unit),
      mul_lt_mul_iff_left₀ hunit, Int.cast_lt_zero]
  · rw [abs_mul_pow_unit]
    generalize S.natAbs = P at *
    -- Either the mantissas were added where they stand, or the sum vanished there and they
    -- were shifted up by three first: then it is 0, or the one unit that alignment drops.
    rcases hshift with rfl | ⟨rfl, h0 | ⟨h1, rfl⟩⟩
    · have hdiv : P / 2 ^ D < 2 ^ 12 := Nat.div_lt_of_lt_mul (by rwa [Nat.mul_comm])
      have hwords : wordOf 16 ((P : ℤ) * 2 ^ 0 / 2 ^ D) = P / 2 ^ D ∧
          wordOf D ((P : ℤ) * 2 ^ 0) = P % 2 ^ D := by
        rw [pow_zero, mul_one, wordOf_natCast_eq]
        refine ⟨?_, rfl⟩
        have h := wordOf_natCast (w := 16) (show P / 2 ^ D < 2 ^ 16 by omega)
        push_cast at h
        exact h
      rw [hwords.1, hwords.2]
      exact roundSum_nearest hlow hD hP
    · rw [h0]
      have hwords : wordOf 16 (((0 : Nat) : ℤ) * 2 ^ 3 / 2 ^ D) = 0 ∧
          wordOf D (((0 : Nat) : ℤ) * 2 ^ 3) = 0 := by
        rw [Nat.cast_zero, zero_mul, Int.zero_ediv]
        exact ⟨rfl, wordOf_natCast (Nat.two_pow_pos D)⟩
      rw [hwords.1, hwords.2, Nat.zero_mul, Nat.cast_zero, zero_mul, zero_mul]
      exact roundSum_zero _
    · rw [h1]
      have hwords : wordOf 16 (((1 : Nat) : ℤ) * 2 ^ 3 / 2 ^ 1) = 4 ∧
          wordOf 1 (((1 : Nat) : ℤ) * 2 ^ 3) = 0 := ⟨by decide, by decide⟩
      have h := roundSum_four (e := low + 1) (by omega)
      rw [hwords.1, hwords.2, Nat.zero_mul, Nat.cast_one, one_mul]
      exact h

/-! ## The difference -/

theorem reverse_sign {v : Nat} (hv : v < 2 ^ 16) :
    let w := ((2 ^ 16 - 1 - v) &&& FP16_SIGN_MASK) ||| (v &&& FP16_ABS_MAX)
    half.code w = half.code v ∧ half.negative w = !half.negative v := by
  have hlow : v &&& FP16_ABS_MAX = v % 2 ^ 15 := Nat.and_two_pow_sub_one_eq_mod _ 15
  have hhigh : (2 ^ 16 - 1 - v) &&& FP16_SIGN_MASK = 2 ^ 15 * (1 - v / 2 ^ 15) := by
    show (2 ^ 16 - 1 - v) &&& 2 ^ 15 = _
    rw [Nat.and_two_pow, Nat.testBit_eq_decide_div_mod_eq]
    by_cases h : v < 2 ^ 15
    · rw [Nat.div_eq_of_lt h, decide_eq_true (by omega)]
      rfl
    · rw [show v / 2 ^ 15 = 1 by omega, decide_eq_false (by omega)]
      rfl
  have hor := Nat.two_pow_add_eq_or_of_lt (Nat.mod_lt v (Nat.two_pow_pos 15)) (1 - v / 2 ^ 15)
  dsimp only
  rw [hlow, hhigh, ← hor, half_code, half_code, half_negative, half_negative, ← decide_not]
  exact ⟨by omega, decide_eq_decide.mpr (by omega)⟩

theorem value_reverse_sign {v : Nat} (hv : v < 2 ^ 16) :
    let w := ((2 ^ 16 - 1 - v) &&& FP16_SIGN_MASK) ||| (v &&& FP16_ABS_MAX)
    half.code w = half.code v ∧ half.value w = -half.value v := by
  obtain ⟨hcode, hneg⟩ := reverse_sign hv
  refine ⟨hcode, ?_⟩
  unfold FloatFormat.value FloatFormat.magnitude
  rw [hcode, hneg]
  cases half.negative v
  · rfl
  · exact (neg_neg _).symm

/-- A difference is a sum with the other sign. -/
theorem differenceParts {v1 v2 : Nat} (h1 : half.code v1 < half.infinity)
    (h2 : half.code v2 < half.infinity) (hv : v2 < 2 ^ 16) :
    Parts (half.value v1 - half.value v2)
      (sumParts v1 (((2 ^ 16 - 1 - v2) &&& FP16_SIGN_MASK) ||| (v2 &&& FP16_ABS_MAX))) := by
  obtain ⟨hcode, hvalue⟩ := value_reverse_sign hv
  have h := sumParts_parts h1 (hcode ▸ h2)
  rw [hvalue, ← sub_eq_add_neg] at h
  exact h

/-! ## The product -/

theorem mulUp_spec (M : Nat) (e : Int) : ∃ k : Nat, mulUp M e = (M * 2 ^ k, e - k) ∧
    (2 ^ 10 ≤ M * 2 ^ k ∨ e - k ≤ 1) ∧ (k = 0 ∨ M * 2 ^ k < 2 ^ 11 ∧ 1 ≤ e - k) := by
  induction M, e using mulUp.induct with
  | case1 M e h ih =>
    have hM : M < 2 ^ 10 := h.1
    have hshift : (M <<< 1) % 2 ^ 32 = M * 2 := by
      rw [Nat.shiftLeft_eq, pow_one]
      omega
    rw [hshift] at ih
    obtain ⟨k, hrun, hend, hsmall⟩ := ih
    have hpow : M * 2 ^ (k + 1) = M * 2 * 2 ^ k := by rw [Nat.pow_succ']; ring
    refine ⟨k + 1, ?_, ?_, Or.inr ⟨?_, ?_⟩⟩
    · rw [mulUp, if_pos h, hshift, hrun, hpow]
      congr 1
      push_cast
      ring
    · rw [hpow]
      push_cast
      omega
    · rw [hpow]
      rcases hsmall with h0 | hlt
      · rw [h0, pow_zero]
        omega
      · exact hlt.1
    · have := h.2
      push_cast
      rcases hsmall with h0 | hlt
      · omega
      · omega
  -- The loop is left: the mantissa is normalised or the exponent is at its floor.
  | case2 M e h =>
    refine ⟨0, ?_, ?_, Or.inl rfl⟩
    · rw [mulUp, if_neg h, pow_zero, Nat.mul_one, Nat.cast_zero, sub_zero]
    · have hmin : FP16_MAN_HIDE_BIT = 2 ^ 10 := rfl
      rw [hmin] at h
      rw [pow_zero, Nat.mul_one]
      omega

/-- After `i` steps, the loop has the front of the mantissa and, from the top of `mTrunc` on,
the `i` bits behind it; `23` steps and one are enough. -/
theorem mulDown_spec {M : Nat} {e : Int} (hM : M < 2 ^ 22) (he : -23 ≤ e) : ∀ n i : Nat,
    n + i = 24 → ∃ j : Nat, i ≤ j ∧ j ≤ 24 ∧
      mulDown (M / 2 ^ i) (M % 2 ^ i * 2 ^ (32 - i)) (e + i) =
        (M / 2 ^ j, M % 2 ^ j * 2 ^ (32 - j), e + j) ∧
      M / 2 ^ j < 2 ^ 11 ∧ 1 ≤ e + j ∧ (j = i ∨ 2 ^ 10 ≤ M / 2 ^ j ∨ e + j ≤ 1)
  | n, i, hi => by
    have hmax : FP16_MAN_HIDE_BIT <<< 1 = 2 ^ 11 := rfl
    by_cases hgo : FP16_MAN_HIDE_BIT <<< 1 ≤ M / 2 ^ i ∨ e + i < 1
    -- A product of two 11-bit mantissas is below 2^22, so 24 steps are enough.
    · have hi24 : i < 24 := by
        rcases hgo with h | h
        · by_contra hge
          have hle : 2 ^ 24 ≤ 2 ^ i := Nat.pow_le_pow_right (by decide) (by omega)
          rw [hmax, Nat.div_eq_of_lt (by omega)] at h
          omega
        · omega
      obtain ⟨n', rfl⟩ := Nat.exists_eq_succ_of_ne_zero (show n ≠ 0 by omega)
      -- One step moves the lowest mantissa bit to the top of the truncated word.
      have hman : (M / 2 ^ i) >>> 1 = M / 2 ^ (i + 1) := by
        rw [Nat.shiftRight_eq_div_pow, Nat.div_div_eq_div_mul, ← Nat.pow_add]
      have hword : 2 ^ (32 - i) = 2 * 2 ^ (32 - (i + 1)) := by
        rw [← Nat.pow_succ']
        congr 1
        omega
      have hfit : M % 2 ^ i * 2 ^ (32 - (i + 1)) < 2 ^ 31 := by
        have hlt := Nat.mul_lt_mul_of_pos_right (Nat.mod_lt M (Nat.two_pow_pos i))
          (Nat.two_pow_pos (32 - (i + 1)))
        rw [← Nat.pow_add, show i + (32 - (i + 1)) = 31 by omega] at hlt
        exact hlt
      have htrunc : ((M % 2 ^ i * 2 ^ (32 - i)) >>> 1) ||| (FP32_SIGN_MASK * (M / 2 ^ i &&& 1)) =
          M % 2 ^ (i + 1) * 2 ^ (32 - (i + 1)) := by
        rw [Nat.and_one_is_mod, Nat.shiftRight_eq_div_pow, pow_one, hword, Nat.mul_left_comm,
          Nat.mul_div_cancel_left _ (by decide), Nat.or_comm,
          show FP32_SIGN_MASK = 2 ^ 31 from rfl, ← Nat.two_pow_add_eq_or_of_lt hfit,
          Nat.mod_pow_succ, Nat.add_mul, Nat.add_comm]
        congr 1
        rw [Nat.mul_right_comm, ← Nat.pow_add, show i + (32 - (i + 1)) = 31 by omega]
      obtain ⟨j, hij, hj, hrun, hlt, hpos, hend⟩ := mulDown_spec hM he n' (i + 1) (by omega)
      refine ⟨j, by omega, hj, ?_, hlt, hpos, Or.inr ?_⟩
      · rw [mulDown, if_pos hgo, hman, htrunc, ← hrun]
        push_cast
        rw [add_assoc]
      · rcases hend with rfl | hend
        · rcases hgo with h | h
          · left
            rw [hmax] at h
            rw [← hman, Nat.shiftRight_eq_div_pow, pow_one]
            omega
          · right
            push_cast
            omega
        · exact hend
    · rw [hmax] at hgo
      exact ⟨i, le_rfl, by omega, by rw [mulDown, hmax, if_neg hgo], by omega, by omega, Or.inl rfl⟩

/-- What the end of `fp16Mul` makes of a significand of at most eleven bits. -/
theorem roundProduct {r j b : Nat} (hm : m < 2 ^ 11) (hlo : 2 ^ 10 ≤ m ∨ b = 0) (hj : j ≤ 32)
    (hr : r < 2 ^ j) (hn : NearestEven (grid 10 half.unit) x (b * 2 ^ 10 + m + roundUp m r j)) :
    CodesWrapped x (let (mulM, eRet) := carryDown (roundTrunc (r * 2 ^ (32 - j)) m 0) (b + 1)
      let eRet := if eRet = 1 ∧ mulM < FP16_MAN_HIDE_BIT then 0 else eRet
      (eRet.toNat, mulM % 2 ^ 16)) := by
  have hfit : r * 2 ^ (32 - j) < 2 ^ 32 := by
    have := Nat.mul_lt_mul_of_pos_right hr (Nat.two_pow_pos (32 - j))
    rwa [← Nat.pow_add, Nat.add_sub_cancel' hj] at this
  have hup := roundUp_mul_two_pow m r j (32 - j)
  rw [Nat.add_sub_cancel' hj] at hup
  have hle := roundUp_le_one m r j
  have hhide : FP16_MAN_HIDE_BIT = 2 ^ 10 := rfl
  rw [roundTrunc_eq hfit, hup, pow_zero, Nat.div_one, carryDown_eq (by omega) (by omega), hhide]
  generalize roundUp m r j = up at *
  -- The mantissa may round up to 2^11, and then the exponent takes the carry.
  by_cases hcarry : m + up = 2 ^ 11
  · have hplace := codesWrapped_place hm (by omega) hle hn
    rw [if_pos hcarry] at hplace ⊢
    dsimp only
    rw [if_neg (fun hc => by omega), show ((b : Int) + 1 + 1).toNat = b + 2 by omega]
    exact hplace
  · rw [if_neg hcarry]
    dsimp only
    rw [Nat.mod_eq_of_lt (by omega)]
    -- No carry: a mantissa below the hidden bit at exponent 1 is written as a subnormal.
    by_cases hsub : (b : Int) + 1 = 1 ∧ m + up < 2 ^ 10
    · have hb : b = 0 := by omega
      rw [hb, Nat.zero_mul, Nat.zero_add] at hn
      rw [if_pos hsub]
      refine ⟨_, hn, ?_⟩
      rw [Int.toNat_zero, normalCode_subnormal hsub.2.le]
      exact (if_pos (hsub.2.trans (by decide))).symm
    · rw [if_neg hsub, show ((b : Int) + 1).toNat = b + 1 by omega]
      refine ⟨_, hn, ?_⟩
      rw [normalCode_wrapped (by omega) (by omega), Nat.add_assoc]

theorem signedMan_mul {sA sB : Nat} (hsA : sA < 2) (hsB : sB < 2) (mA mB : Nat) :
    signedMan sA mA * signedMan sB mB = signedMan (sA ^^^ sB) (mA * mB) := by
  obtain rfl | rfl : sA = 0 ∨ sA = 1 := by omega
  · obtain rfl | rfl : sB = 0 ∨ sB = 1 := by omega
    · exact (Int.natCast_mul mA mB).symm
    · exact (Int.mul_neg _ _).trans (congrArg _ (Int.natCast_mul mA mB).symm)
  · obtain rfl | rfl : sB = 0 ∨ sB = 1 := by omega
    · exact (Int.neg_mul _ _).trans (congrArg _ (Int.natCast_mul mA mB).symm)
    · exact (Int.neg_mul_neg _ _).trans (Int.natCast_mul mA mB).symm

/-- What `fp16Mul` normalises. -/
def productParts (v1 v2 : Nat) : Nat × Nat × Nat :=
  let (sA, eA, mA) := extractFP16 v1
  let (sB, eB, mB) := extractFP16 v2
  let (mulM, eRet) := mulUp ((mA * mB) % 2 ^ 32) ((eA : Int) + eB - FP16_EXP_BIAS - 10)
  let (mulM, mTrunc, eRet) := mulDown mulM 0 eRet
  let (mulM, eRet) := carryDown (roundTrunc mTrunc mulM 0) eRet
  let eRet := if eRet = 1 ∧ mulM < FP16_MAN_HIDE_BIT then 0 else eRet
  (sA ^^^ sB, eRet.toNat, mulM % 2 ^ 16)

/-- Sign, exponent and significand of a product are those of the rounded one. -/
theorem productParts_parts {v1 v2 : Nat} (h1 : half.code v1 < half.infinity)
    (h2 : half.code v2 < half.infinity) :
    Parts (half.value v1 * half.value v2) (productParts v1 v2) := by
  have hA := extractFP16_fields h1
  have hB := extractFP16_fields h2
  unfold productParts
  generalize extractFP16 v1 = fA at *
  generalize extractFP16 v2 = fB at *
  obtain ⟨sA, eA, mA⟩ := fA
  obtain ⟨sB, eB, mB⟩ := fB
  dsimp only at hA hB ⊢
  have hsA := hA.sign_lt
  have hsB := hB.sign_lt
  have hpA := hA.exp_pos
  have hpB := hB.exp_pos
  have hM : mA * mB < 2 ^ 22 := by
    have := Nat.mul_le_mul hA.man_lt.le hB.man_lt.le
    have := Nat.mul_lt_mul'' hA.man_lt hB.man_lt
    omega
  have hvalue : half.value v1 * half.value v2 =
      (signedMan (sA ^^^ sB) (mA * mB) : ℤ) * 2 ^ (eA + eB - 2) * (half.unit * half.unit) := by
    rw [hA.value, hB.value, ← signedMan_mul hsA hsB,
      show eA + eB - 2 = (eA - 1) + (eB - 1) by omega, pow_add]
    push_cast
    ring
  have hs : sA ^^^ sB < 2 := Nat.xor_lt_two_pow (n := 1) hsA hsB
  rw [hvalue]
  generalize sA ^^^ sB = s at *
  generalize mA * mB = M at *
  have hw : (0 : ℚ) < half.unit * half.unit :=
    mul_pos half.unit_pos half.unit_pos
  have habs : |(signedMan s M : ℚ) * 2 ^ (eA + eB - 2) *
      (half.unit * half.unit)| =
      M * 2 ^ (eA + eB - 2) * (half.unit * half.unit) := by
    have hman : (signedMan s M).natAbs = M := by
      unfold signedMan
      split <;> omega
    rw [abs_mul, abs_mul, abs_of_pos hw,
      abs_of_pos (show (0 : ℚ) < 2 ^ (eA + eB - 2) by positivity),
      ← Int.cast_abs, Int.abs_eq_natAbs, hman, Int.cast_natCast]
  -- the two loops
  rw [Nat.mod_eq_of_lt (show M < 2 ^ 32 by omega)]
  obtain ⟨k, hup, hupEnd, hupSmall⟩ :=
    mulUp_spec M ((eA : Int) + eB - FP16_EXP_BIAS - 10)
  have hbias : (FP16_EXP_BIAS : Int) = 15 := rfl
  rw [hbias] at hup hupEnd hupSmall ⊢
  have hMk : M * 2 ^ k < 2 ^ 22 := by
    rcases hupSmall with h | h
    · rw [h, pow_zero]
      omega
    · omega
  obtain ⟨j, -, hj, hdown, hlt, hpos, hend⟩ :=
    mulDown_spec hMk (e := (eA : Int) + eB - 15 - 10 - k) (by omega) 24 0 rfl
  obtain ⟨b, hb⟩ : ∃ b : Nat, (eA : Int) + eB - 15 - 10 - k + j = b + 1 :=
    ⟨((eA : Int) + eB - 15 - 10 - k + j - 1).toNat, by omega⟩
  rw [hb] at hdown hend hpos
  have hstart : mulDown (M * 2 ^ k) 0 ((eA : Int) + eB - 15 - 10 - k) =
      (M * 2 ^ k / 2 ^ j, M * 2 ^ k % 2 ^ j * 2 ^ (32 - j), (b : Int) + 1) := by
    rw [← hdown, pow_zero, Nat.div_one, Nat.mod_one, Nat.zero_mul, Nat.cast_zero, add_zero]
  rw [hup]
  dsimp only
  rw [hstart]
  dsimp only
  have hlo : 2 ^ 10 ≤ M * 2 ^ k / 2 ^ j ∨ b = 0 := by
    rcases hend with h0 | h | h
    · rw [h0, pow_zero, Nat.div_one]
      omega
    · exact Or.inl h
    · omega
  have hn := nearestEven_cut (p := 10) (a := eA + eB - 2 - k) (b := b) (D := 24) (t := j)
    (M := M * 2 ^ k) (u := half.unit)
    (w := half.unit * half.unit)
    (x := M * 2 ^ (eA + eB - 2) * (half.unit * half.unit))
    (by decide) half.unit_pos (by
      have hpow : (2 : ℚ) ^ (eA + eB - 2) = 2 ^ k * 2 ^ (eA + eB - 2 - k) := by
        rw [← pow_add]
        congr 1
        omega
      rw [hpow]
      push_cast
      ring)
    (by rw [mul_assoc, mul_comm half.unit (2 ^ 24), two_pow_mul_unit, mul_one])
    (by omega) hlo hlt
  have hround := roundProduct hlt hlo (by omega) (Nat.mod_lt _ (Nat.two_pow_pos j)) hn
  refine ⟨hs, fun hx => ?_, habs ▸ hround⟩
  have hM0 : M ≠ 0 := by
    rintro rfl
    refine hx ?_
    have : signedMan s 0 = 0 := by
      unfold signedMan
      split <;> rfl
    rw [this]
    push_cast
    ring
  have hwpow : (0 : ℚ) < 2 ^ (eA + eB - 2) * (half.unit * half.unit) :=
    mul_pos (by positivity) hw
  rw [mul_assoc, ← zero_mul (2 ^ (eA + eB - 2) * (half.unit * half.unit)),
    mul_lt_mul_iff_left₀ hwpow, Int.cast_lt_zero]
  unfold signedMan
  split <;> omega

/-! ## The three operations -/

inductive ArithOp where
  | add
  | sub
  | mul
deriving DecidableEq, Repr

def ArithOp.exact : ArithOp → ℚ → ℚ → ℚ
  | .add, x, y => x + y
  | .sub, x, y => x - y
  | .mul, x, y => x * y

def ArithOp.run : ArithOp → Nat → Nat → Nat
  | .add, v1, v2 => fp16Add v1 v2
  | .sub, v1, v2 => fp16Sub v1 v2
  | .mul, v1, v2 => fp16Mul v1 v2

/-- The exact result of two operands. -/
def ArithOp.result (op : ArithOp) (v1 v2 : UInt16) : ℚ :=
  op.exact (half.value v1.toNat) (half.value v2.toNat)

theorem ArithOp.wraps (op : ArithOp) {v1 v2 : UInt16} (h1 : half.code v1.toNat < half.infinity)
    (h2 : half.code v2.toNat < half.infinity) :
    Wraps (op.result v1 v2) (op.run v1.toNat v2.toNat) := by
  cases op with
  | add => exact (sumParts_parts h1 h2).wraps
  | sub => exact (differenceParts h1 h2 v2.toNat_lt).wraps
  | mul => exact (productParts_parts h1 h2).wraps

/-- A result that rounds to a finite number is that number. -/
theorem arith_rounded (op : ArithOp) {v1 v2 : UInt16} (h1 : half.code v1.toNat < half.infinity)
    (h2 : half.code v2.toNat < half.infinity) {n : ℕ}
    (hn : NearestEven (grid 10 half.unit) |op.result v1 v2| n)
    (hfinite : n < half.infinity) :
    half.code (op.run v1.toNat v2.toNat) = n ∧
      (op.result v1 v2 ≠ 0 →
        half.negative (op.run v1.toNat v2.toNat) = decide (op.result v1 v2 < 0)) := by
  obtain ⟨⟨m, hm, hcode⟩, hsign⟩ := op.wraps h1 h2
  have hmn : m = n := hm.unique (grid_strictMono 10 half.unit_pos) hn
  rw [half_infinity] at hfinite
  refine ⟨?_, hsign⟩
  rw [hcode, hmn]
  exact if_pos hfinite

theorem half_magnitude {v e : Nat} (hcode : half.code v = e * 2 ^ 10 + m) (h : 2 ^ 10 ≤ m)
    (hm : m ≤ 2 ^ 11) :
    half.magnitude v = m * 2 ^ e * half.unit :=
  half.magnitude_place hcode (Or.inl h) hm

theorem nearest_exact {e : Nat} (h : 2 ^ 10 ≤ m) (hm : m < 2 ^ 11) :
    NearestEven (grid 10 half.unit) (m * 2 ^ e * half.unit)
      (e * 2 ^ 10 + m) := by
  have hn := nearestEven_place (p := 10) (e := e) (m := m) (r := 0) (t := 0)
    (u := half.unit) (x := m * 2 ^ e * half.unit) (by decide)
    half.unit_pos (Or.inl h) hm (by decide) (by push_cast; ring)
  have hround : roundUp m 0 0 = 0 := if_neg (by omega)
  rwa [hround, Nat.add_zero] at hn

/-- Twice a normal number. -/
theorem twice_nearest {v : UInt16} {e : Nat} (hneg : half.negative v.toNat = false)
    (hcode : half.code v.toNat = e * 2 ^ 10 + m) (h : 2 ^ 10 ≤ m) (hm : m < 2 ^ 11) :
    NearestEven (grid 10 half.unit) |ArithOp.add.result v v| ((e + 1) * 2 ^ 10 + m) := by
  have hvalue : half.value v.toNat = m * 2 ^ e * half.unit := by
    unfold FloatFormat.value
    rw [hneg, if_neg Bool.false_ne_true]
    exact half_magnitude hcode h hm.le
  have hsum : |ArithOp.add.result v v| = m * 2 ^ (e + 1) * half.unit := by
    have hpos := half.unit_pos
    unfold ArithOp.result ArithOp.exact
    dsimp only
    rw [hvalue, abs_of_nonneg (by positivity)]
    ring
  rw [hsum]
  exact nearest_exact h hm

/-- `1 + 1 = 2` -/
theorem arith_rounded_one_one :
    half.code (ArithOp.add.run (0x3C00 : UInt16).toNat (0x3C00 : UInt16).toNat) =
        15 * 2 ^ 10 + 2 ^ 10 ∧
      (ArithOp.add.result 0x3C00 0x3C00 ≠ 0 → half.negative
            (ArithOp.add.run (0x3C00 : UInt16).toNat (0x3C00 : UInt16).toNat) =
          decide (ArithOp.add.result 0x3C00 0x3C00 < 0)) :=
  arith_rounded .add (by decide) (by decide)
    (twice_nearest (e := 14) rfl (by decide) le_rfl (by decide)) (by decide)

theorem max_add_max : NearestEven (grid 10 half.unit)
    |ArithOp.add.result 0x7BFF 0x7BFF| (30 * 2 ^ 10 + 2047) :=
  twice_nearest (e := 29) rfl (by decide) (by decide) (by decide)

theorem max_finite : half.code (0x7BFF : UInt16).toNat < half.infinity := by decide

/-- A result that rounds to a number too large becomes infinity exactly if that number is a
power of two, so that its mantissa field is zero anyway. -/
theorem arith_overflow (op : ArithOp) {v1 v2 : UInt16} (h1 : half.code v1.toNat < half.infinity)
    (h2 : half.code v2.toNat < half.infinity) {n : ℕ}
    (hn : NearestEven (grid 10 half.unit) |op.result v1 v2| n)
    (hover : half.infinity ≤ n) :
    half.code (op.run v1.toNat v2.toNat) = half.infinity ∧
        half.negative (op.run v1.toNat v2.toNat) = decide (op.result v1 v2 < 0) ↔
      ∃ k, n = k * 2 ^ 10 := by
  obtain ⟨⟨m, hm, hcode⟩, hsign⟩ := op.wraps h1 h2
  have hmn : m = n := hm.unique (grid_strictMono 10 half.unit_pos) hn
  have hne : op.result v1 v2 ≠ 0 := by
    intro h0
    have hzero := nearest_small (n := 0) (by decide)
    rw [Nat.cast_zero, zero_mul, ← abs_zero, ← h0] at hzero
    have := hn.unique (grid_strictMono 10 half.unit_pos) hzero
    rw [this, half_infinity] at hover
    exact absurd hover (by decide)
  rw [half_infinity] at hover ⊢
  rw [hcode, hmn, hsign hne]
  unfold wrapped
  rw [if_neg (Nat.not_lt.mpr hover)]
  constructor
  · intro ⟨h, _⟩
    exact ⟨n / 2 ^ 10, by omega⟩
  · rintro ⟨k, rfl⟩
    rw [Nat.mul_mod_left]
    exact ⟨rfl, rfl⟩

/-- Twice the largest half is no infinity, twice the largest power of two is. -/
theorem arith_overflow_max_add_max :
    (half.code (ArithOp.add.run (0x7BFF : UInt16).toNat (0x7BFF : UInt16).toNat) =
          half.infinity ∧
        half.negative
            (ArithOp.add.run (0x7BFF : UInt16).toNat (0x7BFF : UInt16).toNat) =
          decide (ArithOp.add.result 0x7BFF 0x7BFF < 0) ↔
      ∃ k, 30 * 2 ^ 10 + 2047 = k * 2 ^ 10) ∧
    half.code (ArithOp.add.run (0x7800 : UInt16).toNat (0x7800 : UInt16).toNat) =
        half.infinity ∧
      half.negative (ArithOp.add.run (0x7800 : UInt16).toNat (0x7800 : UInt16).toNat) =
        decide (ArithOp.add.result 0x7800 0x7800 < 0) :=
  ⟨arith_overflow .add max_finite max_finite max_add_max (by decide),
    (arith_overflow .add (by decide) (by decide)
      (twice_nearest (e := 29) (m := 2 ^ 10) rfl (by decide) (by decide) (by decide))
      (by decide)).mpr ⟨31, by decide⟩⟩

/-- The largest half and itself: a NaN. -/
theorem max_add_max_nan :
    NearestEven (grid 10 half.unit) |ArithOp.add.result 0x7BFF 0x7BFF| 0x7FFF ∧
      half.infinity ≤ 0x7FFF ∧
      half.code
          (ArithOp.add.run (0x7BFF : UInt16).toNat (0x7BFF : UInt16).toNat) = 0x7FFF ∧
      half.infinity < 0x7FFF := by
  obtain ⟨⟨m, hm, hcode⟩, -⟩ := ArithOp.add.wraps max_finite max_finite
  have hmn := hm.unique (grid_strictMono 10 half.unit_pos) max_add_max
  refine ⟨max_add_max, by decide, ?_, by decide⟩
  rw [hcode, hmn]
  decide

end OpBase.Fp16
