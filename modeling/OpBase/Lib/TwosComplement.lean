import Mathlib

/-!
# Integers in a word

An integer, negative ones too, in a word of `w` bits, and what the operations on
words without sign make of it. Where the integer fits, the shift that keeps the top bit
divides it, rounding down.

> `wordOf_shiftRight`: the words of `x` and of `x / 2 ^ k`.
-/

namespace OpBase.Lib

def wordOf (w : ℕ) (x : ℤ) : ℕ := (x % 2 ^ w).toNat

variable {w : ℕ} {x : ℤ}

/-- The word of an integer is the integer modulo `2 ^ w`. -/
theorem wordOf_cast (w : ℕ) (x : ℤ) : (wordOf w x : ℤ) = x % 2 ^ w :=
  Int.toNat_of_nonneg (Int.emod_nonneg _ (by positivity))

theorem wordOf_lt (w : ℕ) (x : ℤ) : wordOf w x < 2 ^ w := by
  have h := Int.emod_lt_of_pos x (show (0 : ℤ) < 2 ^ w by positivity)
  rw [← wordOf_cast] at h
  exact_mod_cast h

theorem wordOf_natCast_eq (w n : ℕ) : wordOf w n = n % 2 ^ w := by
  have h := wordOf_cast w n
  exact_mod_cast h

theorem wordOf_natCast {n : ℕ} (h : n < 2 ^ w) : wordOf w n = n := by
  rw [wordOf_natCast_eq, Nat.mod_eq_of_lt h]

theorem wordOf_congr {y : ℤ} (h : x % 2 ^ w = y % 2 ^ w) : wordOf w x = wordOf w y := by
  unfold wordOf
  rw [h]

theorem eq_wordOf {n : ℕ} (h : n < 2 ^ w) (hx : (n : ℤ) % 2 ^ w = x % 2 ^ w) :
    n = wordOf w x := by
  rw [← wordOf_congr hx, wordOf_natCast h]

theorem wordOf_mod {k : ℕ} (h : k ≤ w) (x : ℤ) : wordOf w x % 2 ^ k = wordOf k x := by
  refine eq_wordOf (Nat.mod_lt _ (Nat.two_pow_pos k)) ?_
  push_cast
  rw [wordOf_cast, Int.emod_emod, Int.emod_emod_of_dvd x (pow_dvd_pow 2 h)]

theorem wordOf_add (x y : ℤ) : (wordOf w x + wordOf w y) % 2 ^ w = wordOf w (x + y) := by
  refine eq_wordOf (Nat.mod_lt _ (Nat.two_pow_pos w)) ?_
  push_cast
  rw [wordOf_cast, wordOf_cast, Int.emod_emod, ← Int.add_emod]

theorem wordOf_neg (x : ℤ) : (2 ^ w - wordOf w x) % 2 ^ w = wordOf w (-x) := by
  refine eq_wordOf (Nat.mod_lt _ (Nat.two_pow_pos w)) ?_
  have hle := (wordOf_lt w x).le
  push_cast [Nat.cast_sub hle]
  rw [wordOf_cast, Int.emod_emod, Int.sub_emod, Int.emod_self, ← Int.zero_emod (2 ^ w),
    Int.emod_emod, ← Int.sub_emod, Int.zero_sub]

theorem wordOf_shiftLeft (x : ℤ) (k : ℕ) : (wordOf w x <<< k) % 2 ^ w = wordOf w (x * 2 ^ k) := by
  refine eq_wordOf (Nat.mod_lt _ (Nat.two_pow_pos w)) ?_
  rw [Nat.shiftLeft_eq]
  push_cast
  rw [wordOf_cast, Int.emod_emod, Int.mul_emod, Int.emod_emod, ← Int.mul_emod]

theorem wordOf_shiftLeft_top {k : ℕ} (h : k ≤ w) (x : ℤ) :
    (wordOf w x <<< (w - k)) % 2 ^ w = wordOf k x * 2 ^ (w - k) := by
  have hw : 2 ^ w = 2 ^ k * 2 ^ (w - k) := by rw [← Nat.pow_add, Nat.add_sub_cancel' h]
  rw [Nat.shiftLeft_eq, ← wordOf_mod h]
  conv_lhs => rw [hw]
  rw [Nat.mul_mod_mul_right]

/-- The top bit is the sign. -/
theorem wordOf_sign (hlo : -2 ^ w ≤ x) (hhi : x < 2 ^ w) :
    wordOf (w + 1) x / 2 ^ w = if x < 0 then 1 else 0 := by
  have hlt := wordOf_lt (w + 1) x
  have hcast := wordOf_cast (w + 1) x
  have hw : (2 : ℤ) ^ (w + 1) = 2 * 2 ^ w := by ring
  have hpos := Nat.two_pow_pos w
  rw [Nat.pow_succ] at hlt
  rw [hw] at hcast
  by_cases hneg : x < 0
  · rw [if_pos hneg]
    have hmod : x % (2 * 2 ^ w) = x + 2 * 2 ^ w := by
      rw [← Int.add_emod_right, Int.emod_eq_of_lt (by linarith) (by linarith)]
    rw [hmod] at hcast
    have hge : 2 ^ w ≤ wordOf (w + 1) x := by
      have : (2 : ℤ) ^ w ≤ wordOf (w + 1) x := by linarith
      exact_mod_cast this
    exact Nat.div_eq_of_lt_le (by omega) (by omega)
  · rw [if_neg hneg]
    rw [Int.emod_eq_of_lt (by linarith) (by linarith)] at hcast
    refine Nat.div_eq_of_lt ?_
    have : (wordOf (w + 1) x : ℤ) < 2 ^ w := by linarith
    exact_mod_cast this

/-- A shift that keeps the top bit halves the integer, rounding down. -/
theorem wordOf_shiftRight_one (hlo : -2 ^ w ≤ x) (hhi : x < 2 ^ w) :
    (wordOf (w + 1) x &&& 2 ^ w) ||| (wordOf (w + 1) x >>> 1) = wordOf (w + 1) (x / 2) := by
  have hsign := wordOf_sign hlo hhi
  have hlt := wordOf_lt (w + 1) x
  have hcast := wordOf_cast (w + 1) x
  have hw : (2 : ℤ) ^ (w + 1) = 2 * 2 ^ w := by ring
  have hpos : (0 : ℤ) < 2 ^ w := by positivity
  have hhalf : wordOf (w + 1) x / 2 < 2 ^ w := by
    rw [Nat.pow_succ] at hlt
    omega
  rw [hw] at hcast
  rw [Nat.and_two_pow, Nat.testBit_eq_decide_div_mod_eq, hsign, Nat.shiftRight_eq_div_pow, pow_one]
  by_cases hneg : x < 0
  -- Negative: the sign bit stays on top of the halved word.
  · have hmod : x % (2 * 2 ^ w) = x + 2 * 2 ^ w := by
      rw [← Int.add_emod_right, Int.emod_eq_of_lt (by linarith) (by linarith)]
    rw [hmod] at hcast
    rw [if_pos hneg]
    simp only [Nat.mod_succ, decide_true, Bool.toNat_true, Nat.one_mul]
    have hor := Nat.two_pow_add_eq_or_of_lt hhalf 1
    rw [Nat.mul_one] at hor
    rw [← hor]
    refine eq_wordOf (by rw [Nat.pow_succ]; omega) ?_
    rw [hw, ← Int.add_emod_right (x / 2)]
    congr 1
    push_cast
    omega
  · rw [Int.emod_eq_of_lt (by linarith) (by linarith)] at hcast
    rw [if_neg hneg]
    simp only [Nat.zero_mod, Nat.zero_ne_one, decide_false, Bool.toNat_false, Nat.zero_mul,
      Nat.zero_or]
    refine eq_wordOf (by rw [Nat.pow_succ]; omega) ?_
    rw [hw]
    congr 1
    push_cast
    omega

/-- Such shifts divide by a power of two, rounding down. -/
theorem wordOf_shiftRight (hlo : -2 ^ w ≤ x) (hhi : x < 2 ^ w) : ∀ k,
    (fun man => (man &&& 2 ^ w) ||| (man >>> 1))^[k] (wordOf (w + 1) x) = wordOf (w + 1) (x / 2 ^ k)
  | 0 => by simp
  | k + 1 => by
    have hk : (0 : ℤ) < 2 ^ k := by positivity
    have hlo' : -2 ^ w ≤ x / 2 ^ k := by
      rw [Int.le_ediv_iff_mul_le hk]
      nlinarith [show (1 : ℤ) ≤ 2 ^ k from hk]
    have hhi' : x / 2 ^ k < 2 ^ w := by
      rw [Int.ediv_lt_iff_lt_mul hk]
      nlinarith [show (1 : ℤ) ≤ 2 ^ k from hk]
    rw [Function.iterate_succ_apply', wordOf_shiftRight hlo hhi k, wordOf_shiftRight_one hlo' hhi',
      Int.ediv_ediv_of_nonneg hk.le, pow_succ]

end OpBase.Lib
